/-! # Tables

A table is a list of keys with values, sorted by key. `Table.insert` puts a key in its place, or
replaces the value of a key that is there: `get?_insert_self` and `get?_insert_of_ne` say what is
found afterwards, and `Sorted.insert` that the table stays sorted.
-/

namespace ThemeTemplates

set_option autoImplicit false

abbrev Table (κ α : Type) := List (κ × α)

namespace Table

variable {κ α : Type}

def keys (t : Table κ α) : List κ := t.map Prod.fst

variable [DecidableEq κ]

def get? (k : κ) : Table κ α → Option α
  | [] => none
  | (k', v) :: t => if k = k' then some v else get? k t

def has (k : κ) (t : Table κ α) : Bool := (t.get? k).isSome

def erase (k : κ) (t : Table κ α) : Table κ α := t.filter fun e => e.1 ≠ k

variable [LT κ] [DecidableLT κ]

def insert (k : κ) (v : α) : Table κ α → Table κ α
  | [] => [(k, v)]
  | (k', v') :: t =>
    if k = k' then (k, v) :: t
    else if k < k' then (k, v) :: (k', v') :: t
    else (k', v') :: insert k v t

@[simp] theorem get?_insert_self (k : κ) (v : α) (t : Table κ α) :
    (t.insert k v).get? k = some v := by
  induction t with
  | nil => simp [insert, get?]
  | cons e t ih =>
    obtain ⟨k', v'⟩ := e
    unfold insert
    split
    next => simp [get?]
    next h =>
      split
      next => simp [get?]
      next => rw [get?, if_neg h, ih]

theorem get?_insert_of_ne {k k' : κ} (h : k' ≠ k) (v : α) (t : Table κ α) :
    (t.insert k v).get? k' = t.get? k' := by
  induction t with
  | nil => simp [insert, get?, h]
  | cons e t ih =>
    obtain ⟨j, w⟩ := e
    unfold insert
    split
    next h1 =>
      subst h1
      simp [get?, h]
    next =>
      split
      next => rw [get?, if_neg h]
      next => rw [get?, get?, ih]

/-! ## Members and order -/

omit [LT κ] [DecidableLT κ] in
theorem mem_of_get? {k : κ} {v : α} {t : Table κ α} (h : t.get? k = some v) : (k, v) ∈ t := by
  induction t with
  | nil => simp [get?] at h
  | cons e t ih =>
    obtain ⟨k', w⟩ := e
    by_cases hk : k = k'
    · rw [get?, if_pos hk, Option.some.injEq] at h
      rw [hk, h]
      exact List.mem_cons_self
    · rw [get?, if_neg hk] at h
      exact List.mem_cons_of_mem _ (ih h)

theorem mem_of_mem_insert {e : κ × α} {k : κ} {v : α} {t : Table κ α} (h : e ∈ t.insert k v) :
    e = (k, v) ∨ e ∈ t := by
  induction t with
  | nil => exact .inl (List.mem_singleton.1 h)
  | cons e' t ih =>
    obtain ⟨k', w⟩ := e'
    unfold insert at h
    split at h
    next => exact (List.mem_cons.1 h).imp_right (List.mem_cons_of_mem _)
    next =>
      split at h
      next => exact List.mem_cons.1 h
      next =>
        rcases List.mem_cons.1 h with rfl | h
        · exact .inr List.mem_cons_self
        · exact (ih h).imp_right (List.mem_cons_of_mem _)

theorem mem_keys_of_mem_insert {j k : κ} {v : α} {t : Table κ α} (h : j ∈ (t.insert k v).keys) :
    j = k ∨ j ∈ t.keys := by
  obtain ⟨e, he, rfl⟩ := List.mem_map.1 h
  exact (mem_of_mem_insert he).imp (congrArg Prod.fst) List.mem_map_of_mem

/-- The keys increase, so that none is there twice. -/
def Sorted {κ α : Type} [LT κ] (t : Table κ α) : Prop := t.keys.Pairwise (· < ·)

theorem Sorted.insert [Trans (α := κ) (· < ·) (· < ·) (· < ·)]
    [Std.Trichotomous (α := κ) (· < ·)] {t : Table κ α} (h : t.Sorted) (k : κ) (v : α) :
    Sorted (t.insert k v) := by
  unfold Sorted at *
  induction t with
  | nil => exact List.pairwise_singleton _ _
  | cons e t ih =>
    obtain ⟨k', w⟩ := e
    obtain ⟨h1, h2⟩ := List.pairwise_cons.1 h
    unfold Table.insert
    split
    next hk =>
      subst hk
      exact h
    next hk =>
      split
      next hlt =>
        refine List.pairwise_cons.2 ⟨fun j hj => ?_, h⟩
        rcases List.mem_cons.1 hj with rfl | hj
        · exact hlt
        · exact Trans.trans hlt (h1 j hj)
      next hlt =>
        refine List.pairwise_cons.2 ⟨fun j hj => ?_, ih h2⟩
        rcases mem_keys_of_mem_insert hj with rfl | hj
        · exact Decidable.byContradiction fun hgt =>
            hk (Std.Trichotomous.trichotomous (r := (· < ·)) _ _ hlt hgt)
        · exact h1 j hj

omit [DecidableLT κ] in
theorem Sorted.erase {t : Table κ α} (h : t.Sorted) (k : κ) : Sorted (t.erase k) :=
  h.sublist (List.filter_sublist.map Prod.fst)

end Table

end ThemeTemplates
