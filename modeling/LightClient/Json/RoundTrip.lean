import LightClient.Json.Value

/-! Reading undoes writing: `read_write` says that the spelling of a document
reads as that document. The lexer and the reader are treated apart: `lex_chars`
takes back the first token of a text, `foldlM_tokens` the first value of a list
of tokens. -/

namespace LightClient.Json

/-! ## Numbers -/

namespace Number

/-- A text that does not go on with a digit. -/
def EndsDigits (rest : List Char) : Prop := rest.takeWhile Char.isDigit = []

theorem digits?_append {found rest : List Char} (nonempty : found ≠ [])
    (digits : ∀ c ∈ found, c.isDigit = true) (ends : EndsDigits rest) :
    digits? (found ++ rest) = some (found, rest) := by
  have kept : rest.dropWhile Char.isDigit = rest := by
    have := List.takeWhile_append_dropWhile (p := Char.isDigit) (l := rest)
    rwa [ends, List.nil_append] at this
  unfold digits?
  rw [List.takeWhile_append_of_pos digits, List.dropWhile_append_of_pos digits, ends, kept,
    List.append_nil]
  cases found with
  | nil => exact absurd rfl nonempty
  | cons c cs => rfl

theorem digits?_toDigits (n : Nat) {rest : List Char} (ends : EndsDigits rest) :
    digits? (Nat.toDigits 10 n ++ rest) = some (Nat.toDigits 10 n, rest) :=
  digits?_append Nat.toDigits_ne_nil
    (fun _ => Nat.isDigit_of_mem_toDigits (by decide) (by decide)) ends

/-- A zero in front is the whole number. -/
theorem toDigits_zero_head {n : Nat} {cs : List Char} (h : Nat.toDigits 10 n = '0' :: cs) :
    cs = [] := by
  induction n using Nat.strongRecOn generalizing cs with
  | ind n ih =>
    by_cases small : n < 10
    · rw [Nat.toDigits_of_lt_base small] at h
      exact (List.cons.inj h).2.symm
    · rw [Nat.toDigits_of_base_le (by decide) (by omega)] at h
      cases front : Nat.toDigits 10 (n / 10) with
      | nil => exact absurd front Nat.toDigits_ne_nil
      | cons c rest =>
        rw [front, List.cons_append] at h
        obtain ⟨rfl, rfl⟩ := List.cons.inj h
        have alone := ih (n / 10) (by omega) front
        have zero : n / 10 = 0 := by
          have value := Nat.ofDigitChars_toDigits (b := 10) (n := n / 10) (by decide) (by decide)
          rw [front, alone] at value
          simpa [Nat.ofDigitChars] using value.symm
        omega

theorem whole?_toDigits (n : Nat) {rest : List Char} (ends : EndsDigits rest) :
    whole? (Nat.toDigits 10 n ++ rest) = some (Nat.toDigits 10 n, rest) := by
  unfold whole?
  split
  · next tail h =>
    cases front : Nat.toDigits 10 n with
    | nil => exact absurd front Nat.toDigits_ne_nil
    | cons c cs =>
      rw [front, List.cons_append] at h
      obtain ⟨rfl, rfl⟩ := List.cons.inj h
      rw [toDigits_zero_head front, List.nil_append]
  · exact digits?_toDigits n ends

/-- Digits do not begin with a sign. -/
theorem signed_toDigits (n : Nat) (rest : List Char) :
    signed (Nat.toDigits 10 n ++ rest) = (false, Nat.toDigits 10 n ++ rest) := by
  unfold signed
  split
  · next tail h =>
    cases front : Nat.toDigits 10 n with
    | nil => exact absurd front Nat.toDigits_ne_nil
    | cons c cs =>
      rw [front, List.cons_append] at h
      have minus : c = '-' := (List.cons.inj h).1
      have digit := Nat.isDigit_of_mem_toDigits (b := 10) (n := n) (c := c) (by decide) (by decide)
        (by simp [front])
      rw [minus] at digit
      exact absurd digit (by decide)
  · rfl

theorem signed_sign (negative : Bool) (n : Nat) (rest : List Char) :
    signed (sign negative ++ (Nat.toDigits 10 n ++ rest)) =
      (negative, Nat.toDigits 10 n ++ rest) := by
  cases negative with
  | true => rfl
  | false => exact signed_toDigits n rest

theorem signedEither_sign (negative : Bool) (n : Nat) (rest : List Char) :
    signedEither (sign negative ++ (Nat.toDigits 10 n ++ rest)) =
      (negative, Nat.toDigits 10 n ++ rest) := by
  unfold signedEither
  split
  · next tail h =>
    have first : (sign negative ++ (Nat.toDigits 10 n ++ rest)).head? = some '+' := by rw [h]; rfl
    cases negative with
    | true => cases first
    | false =>
      cases front : Nat.toDigits 10 n with
      | nil => exact absurd front Nat.toDigits_ne_nil
      | cons c cs =>
        rw [front] at first
        have plus : c = '+' := Option.some.inj first
        have digit := Nat.isDigit_of_mem_toDigits (b := 10) (n := n) (c := c) (by decide)
          (by decide) (by simp [front])
        rw [plus] at digit
        exact absurd digit (by decide)
  · exact signed_sign negative n rest

theorem exponent?_chars (exponent : Int) :
    exponent? ('e' :: (sign (exponent < 0) ++ Nat.toDigits 10 exponent.natAbs)) =
      some (exponent, []) := by
  have start := signedEither_sign (exponent < 0) exponent.natAbs []
  have digits := digits?_toDigits exponent.natAbs (show EndsDigits [] from rfl)
  rw [List.append_nil] at start digits
  have size : (if exponent < 0 then -(exponent.natAbs : Int) else exponent.natAbs) = exponent := by
    split <;> omega
  simpa [exponent?, start, digits] using size

/-- Appending digits makes a number no smaller. -/
theorem le_ofDigitChars (cs : List Char) (n : Nat) : n ≤ Nat.ofDigitChars 10 cs n := by
  induction cs generalizing n with
  | nil => simp [Nat.ofDigitChars]
  | cons c cs ih =>
    rw [Nat.ofDigitChars_cons]
    have := ih (10 * n + (c.toNat - '0'.toNat))
    omega

/-- All digits are absorbed where the whole number fits. -/
theorem absorb_of_lt {cs : List Char} {n : UInt64}
    (h : Nat.ofDigitChars 10 cs n.toNat < UInt64.size) :
    absorb n cs = (UInt64.ofNat (Nat.ofDigitChars 10 cs n.toNat), []) := by
  induction cs generalizing n with
  | nil => simp [absorb, Nat.ofDigitChars]
  | cons c cs ih =>
    rw [Nat.ofDigitChars_cons] at h ⊢
    have fits := Nat.lt_of_le_of_lt (le_ofDigitChars _ _) h
    have value : (UInt64.ofNat (10 * n.toNat + (c.toNat - '0'.toNat))).toNat =
        10 * n.toNat + (c.toNat - '0'.toNat) := UInt64.toNat_ofNat_of_lt fits
    rw [absorb, if_pos fits, ih (by rwa [value]), value]

theorem significand_toDigits (n : UInt64) :
    Number.significand (Nat.toDigits 10 n.toNat) [] = (n, 0) := by
  have value : Nat.ofDigitChars 10 (Nat.toDigits 10 n.toNat) 0 = n.toNat :=
    Nat.ofDigitChars_toDigits (by decide) (by decide)
  have all := @absorb_of_lt (Nat.toDigits 10 n.toNat) 0
    (by rw [UInt64.toNat_zero, value]; exact n.toNat_lt)
  rw [UInt64.toNat_zero, value, UInt64.ofNat_toNat] at all
  simp [Number.significand, all, absorb]

theorem ofChars?_chars (n : Number) : ofChars? n.chars = some n := by
  cases n with
  | whole negative magnitude =>
    have split := signed_sign negative magnitude []
    rw [List.append_nil] at split
    have digits := whole?_toDigits magnitude (show EndsDigits [] from rfl)
    rw [List.append_nil] at digits
    simp [ofChars?, chars, split, digits]
  | decimal negative significand exponent =>
    have ends : EndsDigits ('e' :: (sign (exponent < 0) ++ Nat.toDigits 10 exponent.natAbs)) := rfl
    simp [ofChars?, chars, signed_sign, whole?_toDigits _ ends, fraction?, exponent?_chars,
      significand_toDigits]

end Number

/-! ## Texts -/

namespace CodeUnit

/-- The four-digit escape of a control character. -/
theorem hex4_control : ∀ n < 0x20,
    (match Hex.encodeChars [0, UInt8.ofNat n] with
      | [a, b, c, d] => hex4 a b c d
      | _ => none) = some n := by
  decide

theorem scan_plain {c : Char} (rest : List Char) (quote : c ≠ '"') (escape : c ≠ '\\')
    (visible : ¬ c.toNat < 0x20) :
    scan (c :: rest) = (scan rest).map fun found => (.char c :: found.1, found.2) := by
  rw [scan, if_neg (fun bad => bad.elim escape visible)]
  · cases scan rest <;> rfl
  all_goals intros; contradiction

theorem scan_letter {letter c : Char} (rest : List Char) (h : escaped letter = some c) :
    scan ('\\' :: letter :: rest) = (scan rest).map fun found => (.char c :: found.1, found.2) := by
  have short : letter ≠ 'u' := by rintro rfl; cases h
  rw [scan, h]
  · cases scan rest <;> rfl
  · intros
    contradiction

theorem scan_escape (c : Char) (rest : List Char) :
    scan (Text.escape c ++ rest) = (scan rest).map fun found => (.char c :: found.1, found.2) := by
  unfold Text.escape
  split
  case h_8 _ quote slash _ _ _ _ _ =>
    split
    · next control =>
      have code := hex4_control c.toNat control
      simp only [Hex.encodeChars] at code ⊢
      simp only [List.cons_append, List.nil_append, scan, code]
      have unit : ofCode c.toNat = .char c := by
        have high : isHigh c.toNat = false := by simp [isHigh]; omega
        have low : isLow c.toNat = false := by simp [isLow]; omega
        simp [ofCode, high, low]
      cases scan rest <;> simp [unit]
    · next visible => exact scan_plain rest quote slash visible
  all_goals exact scan_letter rest rfl

theorem scan_escapes (cs rest : List Char) :
    scan (cs.flatMap Text.escape ++ '"' :: rest) = some (cs.map .char, rest) := by
  induction cs with
  | nil => simp [scan]
  | cons c cs ih =>
    rw [List.flatMap_cons, List.append_assoc, scan_escape, ih]
    rfl

theorem join_chars (cs : List Char) : join (cs.map .char) = some cs := by
  induction cs with
  | nil => rfl
  | cons c cs ih => simp [join, ih]

end CodeUnit

/-! ## Tokens -/

namespace Token

/-- A text that does not go on with a character of a word. -/
def EndsWord (rest : List Char) : Prop := rest.takeWhile inWord = []

theorem lex_cons (c : Char) (rest : List Char) :
    lex (c :: rest) =
      if isBlank c then lex rest
      else if c = '"' then
        (CodeUnit.scan rest).bind fun found =>
          (lex found.2).map (.text (Text.ofUnits found.1) :: ·)
      else
        match punctuation c with
        | some token => (lex rest).map (token :: ·)
        | none => do
          let token ← ofWord? (c :: rest.takeWhile inWord)
          let tokens ← lex (rest.dropWhile inWord)
          return token :: tokens := by
  rw [lex]
  split
  · rfl
  · split
    · split <;> simp_all
    · rfl

theorem lex_text (t : Text) (rest : List Char) :
    lex (Text.chars t ++ rest) = (lex rest).map (.text t :: ·) := by
  cases t with
  | none =>
    rw [Text.chars, List.cons_append, lex_cons]
    rfl
  | some s =>
    have scanned := CodeUnit.scan_escapes s.toList rest
    simp only [Text.chars, List.cons_append, List.append_assoc, List.nil_append]
    rw [lex_cons, scanned]
    simp [isBlank, Text.ofUnits, CodeUnit.join_chars]

theorem blank_of_inWord {c : Char} (h : inWord c = true) : isBlank c = false := by
  cases blank : isBlank c with
  | false => rfl
  | true =>
    simp only [isBlank, Bool.or_eq_true, beq_iff_eq] at blank
    rcases blank with ((rfl | rfl) | rfl) | rfl <;> exact absurd h (by decide)

theorem quote_of_inWord {c : Char} (h : inWord c = true) : c ≠ '"' := by
  rintro rfl
  exact absurd h (by decide)

theorem punctuation_of_inWord {c : Char} (h : inWord c = true) : punctuation c = none := by
  unfold punctuation
  split <;> first | rfl | exact absurd h (by decide)

theorem lex_word {word rest : List Char} {token : Token} (nonempty : word ≠ [])
    (letters : ∀ c ∈ word, inWord c = true) (reads : ofWord? word = some token)
    (ends : EndsWord rest) : lex (word ++ rest) = (lex rest).map (token :: ·) := by
  cases word with
  | nil => exact absurd rfl nonempty
  | cons c cs =>
    have first := letters c (by simp)
    have others : ∀ d ∈ cs, inWord d = true := fun d h => letters d (by simp [h])
    have kept : rest.dropWhile inWord = rest := by
      have := List.takeWhile_append_dropWhile (p := inWord) (l := rest)
      rwa [ends, List.nil_append] at this
    rw [List.cons_append, lex_cons, List.takeWhile_append_of_pos others,
      List.dropWhile_append_of_pos others, ends, kept, List.append_nil, reads]
    simp only [blank_of_inWord first, quote_of_inWord first, punctuation_of_inWord first]
    cases lex rest <;> rfl

/-- A number is spelled with a digit or a sign in front. -/
theorem exists_number_chars_eq_cons (n : Number) :
    ∃ c cs, n.chars = c :: cs ∧ (c = '-' ∨ c.isDigit = true) := by
  have digits (m : Nat) (rest : List Char) :
      ∃ c cs, Nat.toDigits 10 m ++ rest = c :: cs ∧ c.isDigit = true := by
    cases front : Nat.toDigits 10 m with
    | nil => exact absurd front Nat.toDigits_ne_nil
    | cons c cs =>
      exact ⟨c, cs ++ rest, rfl, Nat.isDigit_of_mem_toDigits (b := 10) (n := m) (by decide)
        (by decide) (by simp [front])⟩
  have signed (negative : Bool) (m : Nat) (rest : List Char) :
      ∃ c cs, Number.sign negative ++ (Nat.toDigits 10 m ++ rest) = c :: cs ∧
        (c = '-' ∨ c.isDigit = true) := by
    cases negative with
    | true => exact ⟨'-', _, rfl, .inl rfl⟩
    | false =>
      obtain ⟨c, cs, eq, digit⟩ := digits m rest
      exact ⟨c, cs, eq, .inr digit⟩
  cases n with
  | whole negative magnitude => simpa [Number.chars] using signed negative magnitude []
  | decimal negative significand exponent =>
    simpa [Number.chars] using signed negative significand.toNat _

theorem inWord_of_isDigit {c : Char} (h : c.isDigit = true) : inWord c = true := by
  simp [inWord, Char.isAlphanum, h]

theorem inWord_of_mem_number {n : Number} {c : Char} (h : c ∈ n.chars) : inWord c = true := by
  have digit {m : Nat} (h : c ∈ Nat.toDigits 10 m) : inWord c = true :=
    inWord_of_isDigit (Nat.isDigit_of_mem_toDigits (by decide) (by decide) h)
  have signed {negative : Bool} (h : c ∈ Number.sign negative) : inWord c = true := by
    cases negative with
    | true => rw [List.mem_singleton.mp h]; decide
    | false => cases h
  cases n with
  | whole negative magnitude =>
    rcases List.mem_append.mp h with h | h
    · exact signed h
    · exact digit h
  | decimal negative significand exponent =>
    simp only [Number.chars, List.append_assoc, List.cons_append, List.mem_append,
      List.mem_cons] at h
    rcases h with h | h | rfl | h | h
    · exact signed h
    · exact digit h
    · decide
    · exact signed h
    · exact digit h

theorem ofWord?_number (n : Number) : ofWord? n.chars = some (.number n) := by
  obtain ⟨c, cs, eq, first⟩ := exists_number_chars_eq_cons n
  have literal : [null, bool true, bool false].find? (·.chars = n.chars) = none := by
    rw [eq]
    have n_ne : c ≠ 'n' := by rintro rfl; exact absurd first (by decide)
    have t_ne : c ≠ 't' := by rintro rfl; exact absurd first (by decide)
    have f_ne : c ≠ 'f' := by rintro rfl; exact absurd first (by decide)
    simp [chars, n_ne.symm, t_ne.symm, f_ne.symm]
  simp [ofWord?, literal, Number.ofChars?_chars]

/-- Whether a token is spelled as a word. -/
def isWord : Token → Bool
  | .null | .bool _ | .number _ => true
  | _ => false

theorem lex_chars (token : Token) (rest : List Char) (ends : token.isWord → EndsWord rest) :
    lex (token.chars ++ rest) = (lex rest).map (token :: ·) := by
  cases token with
  | text t => exact lex_text t rest
  | number n =>
    obtain ⟨c, cs, eq, _⟩ := exists_number_chars_eq_cons n
    exact lex_word (by simp [chars, eq]) (fun _ => inWord_of_mem_number) (ofWord?_number n)
      (ends rfl)
  | null => exact lex_word (by simp [chars]) (List.all_eq_true.mp rfl) rfl (ends rfl)
  | bool b =>
    cases b <;> exact lex_word (by simp [chars]) (List.all_eq_true.mp rfl) rfl (ends rfl)
  | openArray | closeArray | openObject | closeObject | comma | colon =>
    simp [chars, lex_cons, isBlank, punctuation]

end Token

/-! ## Documents -/

open Token

/-- What follows an item or a field begins with punctuation. -/
theorem endsWord_moreItems (items : List Json) (rest : List Char) :
    EndsWord ((moreItems items).flatMap chars ++ rest) := by
  cases items <;> rfl

theorem endsWord_moreFields (fields : List (Text × Json)) (rest : List Char) :
    EndsWord ((moreFields fields).flatMap chars ++ rest) := by
  cases fields <;> rfl

theorem lex_flatMap_cons {token : Token} {tokens : List Token} {rest : List Char}
    (ends : token.isWord → EndsWord (tokens.flatMap chars ++ rest)) :
    lex ((token :: tokens).flatMap chars ++ rest) =
      (lex (tokens.flatMap chars ++ rest)).map (token :: ·) := by
  rw [List.flatMap_cons, List.append_assoc, lex_chars token _ ends]

mutual

theorem lex_tokens (json : Json) (rest : List Char) (ends : EndsWord rest) :
    lex (json.tokens.flatMap chars ++ rest) = (lex rest).map (json.tokens ++ ·) := by
  match json with
  | .null | .bool _ | .number _ | .text _ =>
    simp only [tokens, List.flatMap_cons, List.flatMap_nil, List.append_nil]
    exact lex_chars _ rest fun _ => ends
  | .array [] | .object [] =>
    simp only [tokens]
    rw [lex_flatMap_cons (by simp [isWord]), lex_flatMap_cons (by simp [isWord])]
    simp [Option.map_map, Function.comp_def]
  | .array (item :: items) =>
    simp only [tokens, List.cons_append]
    rw [lex_flatMap_cons (by simp [isWord]), List.flatMap_append, List.append_assoc,
      lex_tokens item _ (endsWord_moreItems items rest), lex_moreItems items rest]
    simp [Option.map_map, Function.comp_def]
  | .object ((name, value) :: fields) =>
    simp only [tokens, List.cons_append]
    rw [lex_flatMap_cons (by simp [isWord]), lex_flatMap_cons (by simp [isWord]),
      lex_flatMap_cons (by simp [isWord]), List.flatMap_append, List.append_assoc,
      lex_tokens value _ (endsWord_moreFields fields rest), lex_moreFields fields rest]
    simp [Option.map_map, Function.comp_def]

theorem lex_moreItems (items : List Json) (rest : List Char) :
    lex ((moreItems items).flatMap chars ++ rest) = (lex rest).map (moreItems items ++ ·) := by
  match items with
  | [] => exact lex_flatMap_cons (by simp [isWord])
  | item :: items =>
    simp only [moreItems, List.cons_append]
    rw [lex_flatMap_cons (by simp [isWord]), List.flatMap_append, List.append_assoc,
      lex_tokens item _ (endsWord_moreItems items rest), lex_moreItems items rest]
    simp [Option.map_map, Function.comp_def]

theorem lex_moreFields (fields : List (Text × Json)) (rest : List Char) :
    lex ((moreFields fields).flatMap chars ++ rest) = (lex rest).map (moreFields fields ++ ·) := by
  match fields with
  | [] => exact lex_flatMap_cons (by simp [isWord])
  | (name, value) :: fields =>
    simp only [moreFields, List.cons_append]
    rw [lex_flatMap_cons (by simp [isWord]), lex_flatMap_cons (by simp [isWord]),
      lex_flatMap_cons (by simp [isWord]), List.flatMap_append, List.append_assoc,
      lex_tokens value _ (endsWord_moreFields fields rest), lex_moreFields fields rest]
    simp [Option.map_map, Function.comp_def]

end

open Reader

theorem foldlM_step {reader next : Reader} {token : Token} {rest : List Token}
    (h : step reader token = some next) :
    (token :: rest).foldlM step reader = rest.foldlM step next := by
  rw [List.foldlM_cons, h]
  rfl

/-- The first item of an array is read like any other value. -/
theorem foldlM_firstItem (json : Json) (stack : List Frame) (rest : List Token) :
    (json.tokens ++ rest).foldlM step ⟨stack, .firstItem⟩ =
      (json.tokens ++ rest).foldlM step ⟨stack, .value⟩ := by
  have first : ∃ t ts, json.tokens = t :: ts ∧ t ≠ .closeArray := by
    unfold tokens
    split <;> simp
  obtain ⟨t, ts, eq, ne⟩ := first
  have same : step ⟨stack, .firstItem⟩ t = step ⟨stack, .value⟩ t := by
    cases t <;> first | rfl | exact absurd rfl ne
  rw [eq, List.cons_append, List.foldlM_cons, List.foldlM_cons, same]

mutual

/-- Reading the tokens of a value leaves the reader after that value. -/
theorem foldlM_tokens (json : Json) (stack : List Frame) (rest : List Token) :
    (json.tokens ++ rest).foldlM step ⟨stack, .value⟩ =
      rest.foldlM step ⟨stack, .after json⟩ := by
  match json with
  | .null | .bool _ | .number _ | .text _ | .array [] | .object [] => rfl
  | .array (item :: items) =>
    simp only [tokens, List.cons_append, List.append_assoc]
    rw [foldlM_step rfl, foldlM_firstItem, foldlM_tokens item, foldlM_moreItems items]
    rfl
  | .object ((name, value) :: fields) =>
    simp only [tokens, List.cons_append, List.append_assoc]
    rw [foldlM_step rfl, foldlM_step rfl, foldlM_step rfl, foldlM_tokens value,
      foldlM_moreFields fields]
    rfl

theorem foldlM_moreItems (items done : List Json) (last : Json) (stack : List Frame)
    (rest : List Token) :
    (moreItems items ++ rest).foldlM step ⟨.array done :: stack, .after last⟩ =
      rest.foldlM step ⟨stack, .after (.array ((last :: done).reverse ++ items))⟩ := by
  match items with
  | [] =>
    rw [List.append_nil]
    exact foldlM_step rfl
  | item :: items =>
    simp only [moreItems, List.cons_append, List.append_assoc]
    rw [foldlM_step rfl, foldlM_tokens item, foldlM_moreItems items]
    simp

theorem foldlM_moreFields (fields done : List (Text × Json)) (name : Text) (last : Json)
    (stack : List Frame) (rest : List Token) :
    (moreFields fields ++ rest).foldlM step ⟨.object done name :: stack, .after last⟩ =
      rest.foldlM step ⟨stack, .after (.object (((name, last) :: done).reverse ++ fields))⟩ := by
  match fields with
  | [] =>
    rw [List.append_nil]
    exact foldlM_step rfl
  | (next, value) :: fields =>
    simp only [moreFields, List.cons_append, List.append_assoc]
    rw [foldlM_step rfl, foldlM_step rfl, foldlM_step rfl, foldlM_tokens value,
      foldlM_moreFields fields]
    simp

end

theorem ofTokens_tokens (json : Json) : ofTokens json.tokens = some json := by
  have := foldlM_tokens json [] []
  rw [List.append_nil] at this
  simp [ofTokens, initial, this, result]

/-- Every document is read back from its spelling. -/
theorem read_write (json : Json) : read json.write = some json := by
  have := lex_tokens json [] rfl
  rw [List.append_nil] at this
  simp [read, write, this, lex, ofTokens_tokens]

end LightClient.Json
