import LightClient.Encoding.Cursor
import LightClient.Proofs.Except

/-! What a reader takes. Each of them returns a value exactly when the unread
input begins with the byte form of that value, and steps over the form. -/

namespace LightClient.Read

section
variable {α β : Type} {c c' : Cursor}

theorem bind_eq_ok {read : Read α} {next : α → Read β} {b : β} :
    (read >>= next) c = .ok (b, c') ↔
      ∃ a middle, read c = .ok (a, middle) ∧ next a middle = .ok (b, c') := by
  have h : (read >>= next) c = read c >>= fun r => next r.1 r.2 := rfl
  rw [h, LightClient.bind_eq_ok]
  exact Prod.exists

theorem pure_eq_ok {a b : α} : (pure a : Read α) c = .ok (b, c') ↔ b = a ∧ c' = c := by
  have h : (pure a : Read α) c = .ok (a, c) := rfl
  rw [h, Except.ok.injEq, Prod.mk.injEq, eq_comm (a := a), eq_comm (a := c)]

/-- A reader that must use up its input takes the whole of it. -/
theorem whole_eq_ok {read : Read α} {bytes : Bytes} {a : α} :
    read.whole bytes = .ok a ↔ ∃ n, read ⟨0, bytes⟩ = .ok (a, ⟨n, []⟩) := by
  unfold whole finish
  rw [LightClient.bind_eq_ok]
  constructor
  · rintro ⟨⟨b, n, rest⟩, hread, h⟩
    cases rest with
    | nil =>
      cases h
      exact ⟨n, hread⟩
    | cons x rest => cases h
  · rintro ⟨n, hread⟩
    exact ⟨_, hread, rfl⟩

theorem fixed_eq_ok {n : Nat} {value : FixedBytes n} :
    fixed n c = .ok (value, c') ↔ c.rest = value.toList ++ c'.rest ∧ c'.offset = c.offset + n := by
  refine ⟨of_fixed, ?_⟩
  obtain ⟨offset, rest⟩ := c
  obtain ⟨offset', rest'⟩ := c'
  rintro ⟨hrest, hoffset⟩
  simp only at hrest hoffset
  rw [hrest, hoffset]
  exact fixed_append value offset rest'

theorem bytes_eq_ok {n : Nat} {value : Bytes} :
    bytes n c = .ok (value, c') ↔
      value.length = n ∧ c.rest = value ++ c'.rest ∧ c'.offset = c.offset + n := by
  simp only [bytes, bind_eq_ok, pure_eq_ok, fixed_eq_ok]
  constructor
  · rintro ⟨a, middle, h, rfl, rfl⟩
    exact ⟨a.length_toList, h⟩
  · rintro ⟨hlen, h⟩
    exact ⟨⟨value, hlen⟩, c', h, rfl, rfl⟩

theorem number_eq_ok {n m : Nat} :
    number n c = .ok (m, c') ↔
      m < Nat.pow 256 n ∧ c.rest = little n m ++ c'.rest ∧ c'.offset = c.offset + n := by
  simp only [number, bind_eq_ok, pure_eq_ok, bytes_eq_ok]
  constructor
  · rintro ⟨a, middle, ⟨rfl, h⟩, rfl, rfl⟩
    rw [little_ofLittle]
    exact ⟨ofLittle_lt a, h⟩
  · rintro ⟨hlt, h⟩
    refine ⟨little n m, c', ⟨length_little n m, h⟩, ?_, rfl⟩
    rw [ofLittle_little, Nat.mod_eq_of_lt hlt]

/-- Reading a type whose values are the numbers of `n` bytes. -/
theorem map_number_eq_ok {n : Nat} {ofNat : Nat → α} {toNat : α → Nat}
    (hlt : ∀ a, toNat a < Nat.pow 256 n) (hto : ∀ m < Nat.pow 256 n, toNat (ofNat m) = m)
    (hof : ∀ a, ofNat (toNat a) = a) {a : α} :
    (do return ofNat (← number n) : Read α) c = .ok (a, c') ↔
      c.rest = little n (toNat a) ++ c'.rest ∧ c'.offset = c.offset + n := by
  simp only [bind_eq_ok, pure_eq_ok, number_eq_ok]
  constructor
  · rintro ⟨m, middle, ⟨hm, h⟩, rfl, rfl⟩
    rw [hto m hm]
    exact h
  · intro h
    exact ⟨toNat a, c', ⟨hlt a, h⟩, (hof a).symm, rfl⟩

theorem u8_eq_ok {b : UInt8} :
    u8 c = .ok (b, c') ↔ c.rest = little 1 b.toNat ++ c'.rest ∧ c'.offset = c.offset + 1 :=
  map_number_eq_ok UInt8.toNat_lt (fun _ => UInt8.toNat_ofNat_of_lt') (fun _ => UInt8.ofNat_toNat)

theorem u16_eq_ok {n : UInt16} :
    u16 c = .ok (n, c') ↔ c.rest = little 2 n.toNat ++ c'.rest ∧ c'.offset = c.offset + 2 :=
  map_number_eq_ok UInt16.toNat_lt (fun _ => UInt16.toNat_ofNat_of_lt')
    (fun _ => UInt16.ofNat_toNat)

theorem u32_eq_ok {n : UInt32} :
    u32 c = .ok (n, c') ↔ c.rest = little 4 n.toNat ++ c'.rest ∧ c'.offset = c.offset + 4 :=
  map_number_eq_ok UInt32.toNat_lt (fun _ => UInt32.toNat_ofNat_of_lt')
    (fun _ => UInt32.ofNat_toNat)

theorem u64_eq_ok {n : UInt64} :
    u64 c = .ok (n, c') ↔ c.rest = little 8 n.toNat ++ c'.rest ∧ c'.offset = c.offset + 8 :=
  map_number_eq_ok UInt64.toNat_lt (fun _ => UInt64.toNat_ofNat_of_lt')
    (fun _ => UInt64.ofNat_toNat)

end

end LightClient.Read
