import LightClient.Ledger.Books
import LightClient.Proofs.Except

/-! The account table as it is hashed: there is one if every account has a stored form,
and it holds these forms under the keys of the accounts. -/

namespace LightClient

/-- A list of steps that all end in values ends in a list of values. -/
theorem exists_mapM_eq_ok {ε α β : Type} {f : α → Except ε β} {as : List α}
    (h : ∀ a ∈ as, ∃ b, f a = .ok b) : ∃ bs, as.mapM f = .ok bs := by
  cases hresult : as.mapM f with
  | ok bs => exact ⟨bs, rfl⟩
  | error e =>
    obtain ⟨a, ha, herror⟩ := exists_of_mapM_eq_error hresult
    obtain ⟨b, hok⟩ := h a ha
    rw [hok] at herror
    cases herror

namespace Ledger

/-- The row of an account. -/
def row (entry : FixedBytes 32 × Account) : Except ClientError (FixedBytes 32 × Bytes) := do
  return (entry.1, ← entry.2.encode.mapError .encoding)

theorem row_eq_ok {entry : FixedBytes 32 × Account} {key : FixedBytes 32} {record : Bytes} :
    row entry = .ok (key, record) ↔ entry.1 = key ∧ entry.2.encode = .ok record := by
  simp only [row, bind_eq_ok, mapError_eq_ok]
  constructor
  · rintro ⟨found, hencode, h⟩
    cases h
    exact ⟨rfl, hencode⟩
  · rintro ⟨rfl, hencode⟩
    exact ⟨record, hencode, rfl⟩

/-- The rows have the keys of their accounts. -/
theorem map_fst_of_map_row {entries : List (FixedBytes 32 × Account)}
    {rows : List (FixedBytes 32 × Bytes)} (h : entries.map row = rows.map .ok) :
    rows.map Prod.fst = entries.map Prod.fst := by
  induction entries generalizing rows with
  | nil => cases rows <;> simp_all
  | cons entry entries ih =>
    cases rows with
    | nil => simp at h
    | cons first rows =>
      rw [List.map_cons, List.map_cons, List.cons.injEq] at h
      rw [List.map_cons, List.map_cons, ih h.2, (row_eq_ok.mp h.1).1]

section
variable {accounts : Accounts} {table : Trie.Entries}

theorem accountTable_eq_ok :
    accountTable accounts = .ok table ↔
      ∃ rows : List (FixedBytes 32 × Bytes),
        accounts.toList.map row = rows.map .ok ∧ .ofList rows = table := by
  have hsteps : accountTable accounts =
      accounts.toList.mapM row >>= fun rows => .ok (.ofList rows) := rfl
  simp only [hsteps, bind_eq_ok, mapM_eq_ok, Except.ok.injEq]

theorem exists_accountTable
    (h : ∀ (key : FixedBytes 32) (account : Account), accounts[key]? = some account →
      ∃ record, account.encode = .ok record) :
    ∃ table, accountTable accounts = .ok table := by
  have hrow : ∀ entry ∈ accounts.toList, ∃ cells, row entry = .ok cells := by
    rintro ⟨key, account⟩ hentry
    obtain ⟨record, hencode⟩ :=
      h key account (Std.ExtTreeMap.mem_toList_iff_getElem?_eq_some.mp hentry)
    exact ⟨(key, record), row_eq_ok.mpr ⟨rfl, hencode⟩⟩
  obtain ⟨rows, hrows⟩ := exists_mapM_eq_ok hrow
  exact ⟨.ofList rows, accountTable_eq_ok.mpr ⟨rows, mapM_eq_ok.mp hrows, rfl⟩⟩

/-- An account stands in the table in its stored form. -/
theorem getElem?_accountTable (h : accountTable accounts = .ok table) {key : FixedBytes 32}
    {account : Account} {record : Bytes} (haccount : accounts[key]? = some account)
    (hencode : account.encode = .ok record) : table[key]? = some record := by
  obtain ⟨rows, hrows, rfl⟩ := accountTable_eq_ok.mp h
  have hdistinct : rows.Pairwise fun a b => ¬ compare a.1 b.1 = .eq := by
    have hkeys := accounts.distinct_keys_toList
    rw [← List.pairwise_map (R := fun a b => ¬ compare a b = .eq)] at hkeys ⊢
    rwa [map_fst_of_map_row hrows]
  have hmem : (.ok (key, record) : Except ClientError _) ∈ rows.map .ok := by
    rw [← hrows]
    refine List.mem_map.mpr ⟨(key, account), ?_, row_eq_ok.mpr ⟨rfl, hencode⟩⟩
    exact Std.ExtTreeMap.mem_toList_iff_getElem?_eq_some.mpr haccount
  obtain ⟨cells, hcells, heq⟩ := List.mem_map.mp hmem
  obtain rfl := Except.ok.inj heq
  exact Std.ExtTreeMap.getElem?_ofList_of_mem Std.ReflCmp.compare_self hdistinct hcells

end

end Ledger

end LightClient
