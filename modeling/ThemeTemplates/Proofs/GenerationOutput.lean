import ThemeTemplates.Registry

/-! # What a rebuild puts together

A rebuild meets the entries below the directory of a theme one after another, and the files may
change between two of them. `Seen` is an entry with the files as they were when it was met.

* `Generation.Compiled` relates the entries seen so far to the templates that they give.
  `Compiled.addEntry` is one entry, `Compiled.addEntries` a whole walk of files that stay as they are.
* `Generation.Complete` adds the mandatory templates. `Generation.complete_of_compile`: what
  `Generation.compile` gives is complete.
-/

namespace ThemeTemplates

set_option autoImplicit false

namespace Table

variable {κ α : Type} [DecidableEq κ]

theorem mem_keys_of_get? {k : κ} {v : α} {t : Table κ α} (h : t.get? k = some v) : k ∈ t.keys :=
  List.mem_map_of_mem (mem_of_get? h)

theorem has_iff_mem_keys {k : κ} {t : Table κ α} : t.has k = true ↔ k ∈ t.keys := by
  constructor
  · intro h
    obtain ⟨v, hv⟩ := Option.isSome_iff_exists.1 h
    exact mem_keys_of_get? hv
  · intro h
    induction t with
    | nil => simp [keys] at h
    | cons e t ih =>
      obtain ⟨k', w⟩ := e
      by_cases hk : k = k'
      · simp [has, get?, hk]
      · rw [has, get?, if_neg hk]
        exact ih ((List.mem_cons.1 h).resolve_left hk)

variable [LT κ] [DecidableLT κ]

theorem perm_keys_insert {k : κ} {t : Table κ α} (v : α) (h : k ∉ t.keys) :
    (t.insert k v).keys.Perm (k :: t.keys) := by
  induction t with
  | nil => exact List.Perm.refl _
  | cons e t ih =>
    obtain ⟨k', w⟩ := e
    have h1 : k ≠ k' := by
      intro e
      exact h (by simp [keys, e])
    have h2 : k ∉ keys t := fun hk => h (List.mem_cons_of_mem _ hk)
    rw [insert, if_neg h1]
    by_cases hlt : k < k'
    · rw [if_pos hlt]
      exact List.Perm.refl _
    · rw [if_neg hlt]
      exact ((ih h2).cons k').trans (List.Perm.swap k k' (keys t))

end Table

/-- An entry that a rebuild met, with the files as they were then. -/
structure Seen where
  files : FileSystem
  met : Path × Entry

namespace Seen

/-- The name of the template that the entry holds. -/
def name? (s : Seen) : Option String := Generation.templateName? s.met

def names (seen : List Seen) : List String := seen.filterMap name?

/-- What is met below a path if the files stay as they are. -/
def walk (fs : FileSystem) (path : Path) : List Seen := (fs.walk path).map (Seen.mk fs)

end Seen

namespace Generation

variable {Context : Type} {functions : Functions Context}

/-- The templates are those of the entries seen: each template file gives the tree of its bytes under
its name, no two have one name, and there are no other names. -/
structure Compiled (functions : Functions Context) (seen : List Seen)
    (templates : Table String Node) : Prop where
  listed : ∀ s ∈ seen, s.met.2.isDirectory = true → s.files.list s.met.1 = .ok ()
  distinct : (Seen.names seen).Nodup
  names : (Table.keys templates).Perm (Seen.names seen)
  trees : ∀ s ∈ seen, ∀ name, s.name? = some name →
    ∃ data root, s.files.read s.met.1 = .ok data ∧ Template.compile functions data name = .ok root ∧
      Table.get? name templates = some root

/-- The templates of the entries seen, the mandatory ones among them. -/
structure Complete (functions : Functions Context) (mandatory : List String) (seen : List Seen)
    (templates : Table String Node) : Prop extends Compiled functions seen templates where
  mandatory : ∀ name ∈ mandatory, name ∈ Table.keys templates

theorem compileTemplate_eq_ok {name : String} {src : Bytes} {root : Node}
    (h : compileTemplate functions name src = .ok root) :
    Template.compile functions src name = .ok root := by
  unfold compileTemplate at h
  split at h
  next root' hc =>
    cases h
    exact hc
  next => cases h

/-- All that is true where an entry is added. -/
theorem addTemplate_eq_ok {fs : FileSystem} {templates templates' : Table String Node} {path : Path}
    {name : String} (h : addTemplate functions fs templates path name = .ok templates') :
    name ∉ Table.keys templates ∧
      ∃ data root, fs.read path = .ok data ∧ Template.compile functions data name = .ok root ∧
        templates' = Table.insert name root templates := by
  unfold addTemplate at h
  split at h
  next => cases h
  next hn =>
    have h1 : name ∉ Table.keys templates := fun hk => hn (Table.has_iff_mem_keys.2 hk)
    split at h
    next => cases h
    next data hd =>
      split at h
      next => cases h
      next root hc =>
        cases h
        exact ⟨h1, data, root, hd, compileTemplate_eq_ok hc, rfl⟩

theorem addEntry_eq_ok {fs : FileSystem} {templates templates' : Table String Node}
    {met : Path × Entry} (h : addEntry functions fs templates met = .ok templates') :
    (met.2.isDirectory = true → fs.list met.1 = .ok ()) ∧
      match templateName? met with
      | none => templates' = templates
      | some name => addTemplate functions fs templates met.1 name = .ok templates' := by
  unfold addEntry at h
  by_cases hd : met.2.isDirectory = true
  · have h1 : templateName? met = none := by rw [templateName?, if_pos hd]
    rw [if_pos hd] at h
    split at h
    next => cases h
    next hl =>
      cases h
      rw [h1]
      exact ⟨fun _ => hl, rfl⟩
  · rw [if_neg hd] at h
    refine ⟨fun h => absurd h hd, ?_⟩
    cases hn : templateName? met with
    | none =>
      simp only [hn] at h
      cases h
      rfl
    | some name =>
      simp only [hn] at h
      exact h

namespace Compiled

theorem nil : Compiled functions [] [] where
  listed := by simp
  distinct := List.nodup_nil
  names := List.Perm.refl _
  trees := by simp

/-- An entry without a template leaves the templates as they are. -/
theorem snoc_none {seen : List Seen} {s : Seen} {templates : Table String Node}
    (hc : Compiled functions seen templates)
    (hl : s.met.2.isDirectory = true → s.files.list s.met.1 = .ok ()) (hn : s.name? = none) :
    Compiled functions (seen ++ [s]) templates := by
  have e : Seen.names (seen ++ [s]) = Seen.names seen := by
    simp [Seen.names, List.filterMap_append, hn]
  constructor
  · exact List.forall_mem_append.2 ⟨hc.listed, List.forall_mem_singleton.2 hl⟩
  · rw [e]
    exact hc.distinct
  · rw [e]
    exact hc.names
  · refine List.forall_mem_append.2 ⟨hc.trees, List.forall_mem_singleton.2 ?_⟩
    intro name h
    rw [hn] at h
    cases h

/-- A template file whose name is new adds its tree. -/
theorem snoc_some {seen : List Seen} {s : Seen} {templates : Table String Node} {name : String}
    {data : Bytes} {root : Node} (hc : Compiled functions seen templates)
    (hl : s.met.2.isDirectory = true → s.files.list s.met.1 = .ok ()) (hn : s.name? = some name)
    (hk : name ∉ Table.keys templates) (hd : s.files.read s.met.1 = .ok data)
    (hr : Template.compile functions data name = .ok root) :
    Compiled functions (seen ++ [s]) (Table.insert name root templates) := by
  have e : Seen.names (seen ++ [s]) = Seen.names seen ++ [name] := by
    simp [Seen.names, List.filterMap_append, hn]
  have hnew : name ∉ Seen.names seen := fun h => hk (hc.names.mem_iff.2 h)
  constructor
  · exact List.forall_mem_append.2 ⟨hc.listed, List.forall_mem_singleton.2 hl⟩
  · rw [e]
    refine List.nodup_append.2 ⟨hc.distinct, by simp, ?_⟩
    intro a ha b hb hab
    cases List.mem_singleton.1 hb
    exact hnew (hab ▸ ha)
  · rw [e]
    calc (Table.keys (Table.insert name root templates)).Perm (name :: Table.keys templates) :=
          Table.perm_keys_insert root hk
      _ |>.Perm (name :: Seen.names seen) := hc.names.cons name
      _ |>.Perm (Seen.names seen ++ [name]) := (List.perm_append_singleton name _).symm
  · refine List.forall_mem_append.2 ⟨?_, List.forall_mem_singleton.2 ?_⟩
    · intro s' hs name' h
      obtain ⟨data', root', hd', hr', hg⟩ := hc.trees s' hs name' h
      have hne : name' ≠ name := by
        intro e
        exact hk (e ▸ Table.mem_keys_of_get? hg)
      exact ⟨data', root', hd', hr', by rw [Table.get?_insert_of_ne hne, hg]⟩
    · intro name' h
      rw [hn] at h
      cases h
      exact ⟨data, root, hd, hr, Table.get?_insert_self name root templates⟩

theorem addEntry {seen : List Seen} {s : Seen} {templates templates' : Table String Node}
    (hc : Compiled functions seen templates)
    (h : addEntry functions s.files templates s.met = .ok templates') :
    Compiled functions (seen ++ [s]) templates' := by
  obtain ⟨hl, h1⟩ := addEntry_eq_ok h
  cases hn : templateName? s.met with
  | none =>
    simp only [hn] at h1
    rw [h1]
    exact hc.snoc_none hl hn
  | some name =>
    simp only [hn] at h1
    obtain ⟨hk, data, root, hd, hr, rfl⟩ := addTemplate_eq_ok h1
    exact hc.snoc_some hl hn hk hd hr

theorem addEntries {fs : FileSystem} {mets : List (Path × Entry)} : ∀ {seen : List Seen}
    {templates templates' : Table String Node}, Compiled functions seen templates →
      addEntries functions fs templates mets = .ok templates' →
        Compiled functions (seen ++ mets.map (Seen.mk fs)) templates' := by
  induction mets with
  | nil =>
    intro seen templates templates' hc h
    cases h
    simpa using hc
  | cons met mets ih =>
    intro seen templates templates' hc h
    rw [Generation.addEntries] at h
    split at h
    next => cases h
    next templates1 h1 =>
      have h2 := ih (Compiled.addEntry (s := ⟨fs, met⟩) hc h1) h
      rwa [List.append_assoc] at h2

end Compiled

theorem missing?_eq_none_iff {mandatory : List String} {templates : Table String Node} :
    missing? mandatory templates = none ↔ ∀ name ∈ mandatory, name ∈ Table.keys templates := by
  unfold missing?
  rw [List.find?_eq_none]
  simp only [Bool.not_eq_true', Bool.not_eq_false, Table.has_iff_mem_keys]

theorem complete_of_compile {mandatory : List String} {fs : FileSystem} {path : Path}
    {templates : Table String Node} (h : compile functions mandatory fs path = .ok templates) :
    Complete functions mandatory (Seen.walk fs path) templates := by
  unfold compile at h
  split at h
  next => cases h
  next templates' ht =>
    split at h
    next => cases h
    next hm =>
      cases h
      exact ⟨Compiled.addEntries Compiled.nil ht, missing?_eq_none_iff.1 hm⟩

end Generation

end ThemeTemplates
