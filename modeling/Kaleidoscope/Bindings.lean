/-
  Kaleidoscope.Bindings — finite maps from names, in the order the names first arrived.

  A map is a list of pairs searched from the front. `insert` overwrites a bound name
  where it stands and appends a new one, so overwriting and then putting the old value
  back gives the very same list, and so does appending and then erasing.
  - `find?_insert` / `find?_erase`: what every name is bound to afterwards.
  - `find?_restore`: `restore` sets one name to whatever it is told, bound or not.
  - `restore_insert`: to restore what was found before an `insert` is to undo it.
-/

namespace Kaleidoscope

abbrev Bindings (α : Type) := List (String × α)

namespace Bindings

variable {α : Type}

def find? : Bindings α → String → Option α
  | [], _ => none
  | (m, a) :: rest, n => if m = n then some a else find? rest n

def insert : Bindings α → String → α → Bindings α
  | [], n, a => [(n, a)]
  | (m, b) :: rest, n, a => if m = n then (n, a) :: rest else (m, b) :: insert rest n a

def erase : Bindings α → String → Bindings α
  | [], _ => []
  | (m, b) :: rest, n => if m = n then erase rest n else (m, b) :: erase rest n

def contains (b : Bindings α) (n : String) : Bool := (b.find? n).isSome

/-- Sets `n` to what it was bound to before: a value, or nothing at all. -/
def restore (b : Bindings α) (n : String) : Option α → Bindings α
  | some a => b.insert n a
  | none => b.erase n

/-! ## What each name is bound to -/

theorem find?_insert (b : Bindings α) (n m : String) (a : α) :
    (b.insert n a).find? m = if n = m then some a else b.find? m := by
  induction b with
  | nil => simp [insert, find?]
  | cons p rest ih =>
    obtain ⟨k, v⟩ := p
    by_cases hk : k = n
    · subst hk; by_cases hm : k = m <;> simp [insert, find?, hm]
    · by_cases hm : k = m
      · subst hm; simp [insert, find?, hk, Ne.symm hk]
      · simp [insert, find?, hk, hm, ih]

theorem find?_erase (b : Bindings α) (n m : String) :
    (b.erase n).find? m = if n = m then none else b.find? m := by
  induction b with
  | nil => simp [erase, find?]
  | cons p rest ih =>
    obtain ⟨k, v⟩ := p
    by_cases hk : k = n
    · subst hk
      by_cases hm : k = m
      · subst hm; simpa [erase] using ih
      · simp [erase, find?, hm, ih]
    · by_cases hm : k = m
      · subst hm; simp [erase, find?, hk, Ne.symm hk]
      · simp [erase, find?, hk, hm, ih]

theorem find?_restore (b : Bindings α) (n m : String) (o : Option α) :
    (b.restore n o).find? m = if n = m then o else b.find? m := by
  cases o with
  | none => exact find?_erase b n m
  | some a => exact find?_insert b n m a

theorem mem_of_find? {b : Bindings α} {n : String} {a : α} (h : b.find? n = some a) : (n, a) ∈ b := by
  induction b with
  | nil => cases h
  | cons p rest ih =>
    obtain ⟨k, v⟩ := p
    simp only [find?] at h
    split at h
    · rename_i hk
      cases h
      rw [hk]
      exact List.mem_cons_self
    · exact List.mem_cons_of_mem _ (ih h)

/-! ## Undoing -/

theorem insert_insert (b : Bindings α) (n : String) (a c : α) : (b.insert n a).insert n c = b.insert n c := by
  induction b with
  | nil => simp [insert]
  | cons p rest ih =>
    obtain ⟨k, v⟩ := p
    by_cases hk : k = n
    · simp [insert, hk]
    · simp [insert, hk, ih]

theorem erase_insert (b : Bindings α) (n : String) (a : α) : (b.insert n a).erase n = b.erase n := by
  induction b with
  | nil => simp [insert, erase]
  | cons p rest ih =>
    obtain ⟨k, v⟩ := p
    by_cases hk : k = n
    · simp [insert, erase, hk]
    · simp [insert, erase, hk, ih]

/-- A name that is set to what it is bound to, or to nothing if it is not. -/
theorem restore_find? (b : Bindings α) (n : String) : b.restore n (b.find? n) = b := by
  induction b with
  | nil => rfl
  | cons p rest ih =>
    obtain ⟨k, v⟩ := p
    by_cases hk : k = n
    · simp [find?, restore, insert, hk]
    · simp only [find?, if_neg hk]
      cases hf : find? rest n with
      | none => simpa [restore, erase, hk, hf] using ih
      | some a => simpa [restore, insert, hk, hf] using ih

theorem restore_insert (b : Bindings α) (n : String) (a : α) : (b.insert n a).restore n (b.find? n) = b := by
  have h : ∀ o, (b.insert n a).restore n o = b.restore n o := by
    intro o
    cases o with
    | none => exact erase_insert b n a
    | some c => exact insert_insert b n a c
  rw [h, restore_find?]

end Bindings

end Kaleidoscope
