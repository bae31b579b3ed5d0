import LightClient.Json.Form
import LightClient.Json.RoundTrip

/-! Forms that lose nothing. A form is faithful if reading what it writes gives the value
back. Texts, numbers and byte strings have such forms, lists of values that have them have
them too, and so do records and choices whose fields have. -/

namespace LightClient.Json

/-- What the form writes is read as the value it was written for. -/
class Form.Faithful {α : Type} (form : Form α) : Prop where
  ofJson?_toJson : ∀ a, form.ofJson? (form.toJson a) = some a

attribute [simp] Form.Faithful.ofJson?_toJson

namespace Form

section
variable {α : Type}

theorem faithful_ofText {toText : α → String} {ofText? : String → Option α}
    (h : ∀ a, ofText? (toText a) = some a) : (ofText toText ofText?).Faithful :=
  ⟨h⟩

instance : string.Faithful := faithful_ofText fun _ => rfl

instance : bool.Faithful := ⟨fun _ => rfl⟩

instance : natural.Faithful := ⟨fun _ => rfl⟩

theorem faithful_bounded {bound : Nat} {toNat : α → Nat} {ofNat : Nat → α}
    (hlt : ∀ a, toNat a < bound) (hof : ∀ a, ofNat (toNat a) = a) :
    (bounded bound toNat ofNat).Faithful := by
  constructor
  intro a
  simp [bounded, hlt, hof]

instance : u8.Faithful := faithful_bounded UInt8.toNat_lt fun _ => UInt8.ofNat_toNat
instance : u16.Faithful := faithful_bounded UInt16.toNat_lt fun _ => UInt16.ofNat_toNat
instance : u32.Faithful := faithful_bounded UInt32.toNat_lt fun _ => UInt32.ofNat_toNat
instance : u64.Faithful := faithful_bounded UInt64.toNat_lt fun _ => UInt64.ofNat_toNat

instance : bytes.Faithful := by
  refine faithful_ofText fun bytes => ?_
  rw [Hex.decode_encode]
  rfl

instance {n : Nat} : (fixed (n := n)).Faithful := by
  refine faithful_ofText fun value => ?_
  rw [Hex.decode_encode]
  exact FixedBytes.ofList?_toList value

instance : publicKey.Faithful := by
  refine faithful_ofText fun key => ?_
  simp only [PublicKey.ofHex, PublicKey.toHex, Hex.decode_encode, PublicKey.ofBytes,
    FixedBytes.ofList?_toList]
  rfl

instance : signature.Faithful := by
  refine faithful_ofText fun signature => ?_
  simp only [Signature.ofHex, Signature.toHex, Hex.decode_encode, Signature.ofBytes,
    FixedBytes.ofList?_toList]
  rfl

instance {form : Form α} [form.Faithful] : form.list.Faithful := by
  constructor
  intro values
  show (values.map form.toJson).mapM form.ofJson? = some values
  induction values with
  | nil => rfl
  | cons value values ih => simp [ih]

/-- A value that is left out is not taken for one that is there. -/
theorem faithful_option {form : Form α} [form.Faithful] (h : ∀ a, form.toJson a ≠ .null) :
    form.option.Faithful := by
  constructor
  intro value
  cases value with
  | none => rfl
  | some a =>
    have hthere := h a
    simp [option]

instance {n : Nat} : (fixed (n := n)).option.Faithful :=
  faithful_option fun value => by simp [fixed, ofText]

end

/-! ## Documents -/

section
variable {α : Type} (form : Form α)

/-- The spelling of a value that a document stands for. -/
def respell (document : String) : Option String := (form.read document).map form.write

/-- Every value is read back from its document, and a spelling is its own spelling. -/
structure Survives : Prop where
  read_write : ∀ a, form.read (form.write a) = some a
  respell_idem : ∀ document spelling, form.respell document = some spelling →
    form.respell spelling = some spelling

variable {form}

theorem read_write [form.Faithful] (a : α) : form.read (form.write a) = some a := by
  rw [read, write, Json.read_write]
  exact Faithful.ofJson?_toJson a

theorem survives [form.Faithful] : form.Survives where
  read_write := read_write
  respell_idem document spelling h := by
    obtain ⟨a, -, rfl⟩ := Option.map_eq_some_iff.mp h
    rw [respell, read_write]
    rfl

end

end Form

/-! ## Records -/

section
variable {fields : Record}

theorem mapM_name_record (fields : Record) :
    ((fields.map fun (name, value) => ((some name : Text), value)).mapM fun (name, value) =>
      name.map (·, value)) = some fields := by
  induction fields with
  | nil => rfl
  | cons field fields ih => simp [ih]

/-- A record with just the fields that are asked for is read as it is. -/
theorem record?_record {names : List String} (hnames : fields.map Prod.fst = names)
    (hdistinct : names.Nodup) : record? names (record fields) = some fields := by
  have hknown : fields.filter (·.1 ∈ names) = fields := by
    rw [List.filter_eq_self]
    intro field hfield
    rw [← hnames]
    exact decide_eq_true (List.mem_map_of_mem hfield)
  rw [← hnames] at hdistinct
  simp only [record?, record, mapM_name_record, Option.bind_eq_bind, Option.bind_some, hknown,
    if_pos hdistinct]

end

namespace Record

variable {α : Type} {form : Form α} {name : String} {rest : Record}

@[simp] theorem get_cons_self [form.Faithful] (a : α) :
    get ((name, form.toJson a) :: rest) form name = some a := by
  simp [get]

@[simp] theorem get_cons_of_ne {other : String} {json : Json} (h : name ≠ other) :
    get ((other, json) :: rest) form name = get rest form name := by
  have hne : (name == other) = false := beq_false_of_ne h
  simp [get, List.lookup_cons, hne]

@[simp] theorem getD_cons_self [form.Faithful] (a default : α) :
    getD ((name, form.toJson a) :: rest) form name default = some a := by
  simp [getD]

end Record

/-! ## Choices -/

/-- A number of 64 bits is far below the range of a double. -/
theorem isFinite_whole (n : UInt64) : (Number.whole false n.toNat).isFinite = true := by
  have hlog : n.toNat.log2 - 52 ≤ 64 := by
    have hlt : n.toNat.log2 < 64 ∨ n.toNat = 0 := by
      by_cases hzero : n.toNat = 0
      · exact .inr hzero
      · exact .inl ((Nat.log2_lt hzero).mpr n.toNat_lt)
    rcases hlt with hlt | hzero
    · omega
    · simp [hzero]
  have hunit : Double.unit n.toNat ≤ UInt64.size := by
    rw [Double.unit, Nat.shiftLeft_eq, Nat.one_mul]
    exact Nat.pow_le_pow_right Nat.two_pos hlog
  have hclose := (Double.nearest_close n.toNat).1
  have hsmall : 2 * UInt64.size < Double.overflow := by decide
  have hone : Double.nearest 1 = 1 := Double.nearest_of_log2_le (by decide)
  have hlt := n.toNat_lt
  have hfits : Double.nearest n.toNat < Double.overflow := by
    simp only [UInt64.size] at hunit hsmall
    omega
  simp [Number.isFinite, Number.significand_toDigits, Double.holds, hone, hfits]

theorem canHold_u64 (depth : Nat) (n : UInt64) : canHold depth (Form.u64.toJson n) = true :=
  isFinite_whole n

theorem canHold_ofText {α : Type} (depth : Nat) {toText : α → String}
    {ofText? : String → Option α} (a : α) :
    canHold depth ((Form.ofText toText ofText?).toJson a) = true :=
  rfl

theorem canHoldFields_record {depth : Nat} {fields : Record}
    (h : ∀ field ∈ fields, canHold depth field.2 = true) :
    canHoldFields depth (fields.map fun (name, value) => (some name, value)) = true := by
  induction fields with
  | nil => rfl
  | cons field fields ih =>
    rw [List.forall_mem_cons] at h
    simp [canHoldFields, h.1, ih h.2]

/-- Only the tag is taken out. -/
theorem partition_tag {tag : String} {others : List (Text × Json)}
    (h : ∀ field ∈ others, field.1 ≠ some tag) (json : Json) :
    ((some tag, json) :: others).partition (fun field => field.1 = some tag) =
      ([(some tag, json)], others) := by
  have htagged : others.filter (fun field => field.1 = some tag) = [] := by
    rw [List.filter_eq_nil_iff]
    exact fun field hfield => mt of_decide_eq_true (h field hfield)
  have huntagged : others.filter (fun field => !decide (field.1 = some tag)) = others := by
    rw [List.filter_eq_self]
    intro field hfield
    simp [h field hfield]
  rw [List.partition_eq_filter_filter]
  simp only [List.filter_cons, Function.comp_def, decide_true, htagged, huntagged, if_true,
    Bool.not_true, Bool.false_eq_true, if_false]

/-- The case of a choice is found, and the rest is left. -/
theorem choice?_choice {tag case : String} {fields : Record}
    (htag : tag ∉ fields.map Prod.fst) (hheld : ∀ field ∈ fields, canHold 126 field.2 = true) :
    choice? tag (choice tag case fields) = some (case, record fields) := by
  have hhold : canHold 127 (choice tag case fields) = true := by
    simpa [choice, record, canHold, canHoldFields] using canHoldFields_record hheld
  have hothers : ∀ field ∈ fields.map fun (name, value) => ((some name : Text), value),
      field.1 ≠ some tag := by
    intro field hfield heq
    obtain ⟨⟨name, value⟩, hmem, rfl⟩ := List.mem_map.mp hfield
    obtain rfl := Option.some.inj heq
    exact htag (List.mem_map_of_mem hmem)
  simp only [choice?, hhold, if_true]
  simp only [choice, record, List.map_cons, partition_tag hothers]

end LightClient.Json
