import Mathlib.Data.List.Nodup
import ThemeTemplates.Proofs.FileTree
import ThemeTemplates.Registry.Generation

/-! # The directories that a walk enters

A walk of the directory at a path enters that directory, by a link too if the path names one, and
every directory that it lists below. `FileSystem.entered` are the paths of these, in the order of the
walk.

* `Entry.WellFormed.mem_walkAll_iff`: below its root a walk meets the entries of the directories that
  it enters.
* `FileSystem.WellFormed.nodup_entered`: it enters none of them twice.
* `FileSystem.directories_eq`: the directories that it lists as such are those that it enters, but
  for a root that is a link. `FileSystem.WellFormed.exists_entered_of_read` leads from a file that can
  be read back to its directory.
-/

namespace ThemeTemplates

set_option autoImplicit false

/-! ## Paths of entries -/

namespace Path

variable {dir name : Bytes}

/-- What stands in a path before the name of an entry of the directory. -/
def stem (dir : Path) : Bytes := if dir.isEmpty || endsWithSlash dir then dir else dir ++ [slash]

theorem join_eq (h : IsName name) : join dir name = stem dir ++ name := by
  have ha : isAbsolute name = false := by
    cases name with
    | nil => exact absurd rfl h.ne_nil
    | cons b s =>
      have hb : b ≠ slash := fun e => h.noSlash (e ▸ List.mem_cons_self)
      simpa [isAbsolute] using hb
  unfold join stem
  rw [ha]
  split
  next h => cases h
  next =>
    split
    next => rfl
    next => rw [List.append_assoc, List.singleton_append]

/-- The path of an entry is not empty and does not end with a slash. -/
theorem stem_join (h : IsName name) : stem (join dir name) = join dir name ++ [slash] := by
  have h1 : (stem dir ++ name).isEmpty = false := by simp [h.ne_nil]
  have h2 : endsWithSlash (stem dir ++ name) = false := by
    rw [endsWithSlash, List.getLast?_append_of_ne_nil _ h.ne_nil, beq_eq_false_iff_ne]
    exact fun e => h.noSlash (List.mem_of_getLast? e)
  rw [join_eq h, stem, h1, h2]
  rfl

/-- The path is that of an entry, or leads through it. -/
def Through (entry p : Path) : Prop := ∃ rest, p = entry ++ rest ∧ ∀ b ∈ rest.head?, b = slash

theorem Through.refl (p : Path) : Through p p := ⟨[], by simp, by simp⟩

theorem Through.trans {p : Path} (hd : stem dir = dir ++ [slash]) (hn : IsName name)
    (h : Through (join dir name) p) : Through dir p := by
  obtain ⟨rest, rfl, -⟩ := h
  refine ⟨slash :: (name ++ rest), ?_, fun b hb => (Option.some.inj hb).symm⟩
  rw [join_eq hn, hd]
  simp

/-- The name of the entry of a directory that a path leads through. -/
def entryName (dir p : Path) : Bytes := (p.drop (stem dir).length).takeWhile (· != slash)

theorem entryName_of_through {p : Path} (hn : IsName name) (h : Through (join dir name) p) :
    entryName dir p = name := by
  obtain ⟨rest, rfl, hr⟩ := h
  have h1 : ∀ b ∈ name, (b != slash) = true :=
    fun b hb => bne_iff_ne.2 fun e => hn.noSlash (e ▸ hb)
  have h2 : rest.takeWhile (· != slash) = [] := by
    cases rest with
    | nil => rfl
    | cons b s => rw [List.takeWhile_cons_of_neg (by simp [hr b rfl])]
  rw [entryName, join_eq hn, List.append_assoc, List.drop_left,
    List.takeWhile_append_of_pos h1, h2, List.append_nil]

theorem ne_of_through {p : Path} (hn : IsName name) (h : Through (join dir name) p) : p ≠ dir := by
  rintro rfl
  have h1 := entryName_of_through hn h
  have h2 : p.length ≤ (stem p).length := by
    unfold stem
    split <;> simp
  rw [entryName, List.drop_of_length_le h2] at h1
  exact hn.ne_nil h1.symm

end Path

/-! ## Walks of a tree -/

namespace Entry

theorem walkAll_eq (dir : Path) (entries : Table Bytes Entry) :
    walkAll dir entries = entries.flatMap fun e => e.2.walk (Path.join dir e.1) := by
  induction entries with
  | nil => rfl
  | cons e entries ih => rw [walkAll, ih, List.flatMap_cons]

theorem mem_walkAll {dir : Path} {entries : Table Bytes Entry} {met : Path × Entry} :
    met ∈ walkAll dir entries ↔ ∃ e ∈ entries, met ∈ e.2.walk (Path.join dir e.1) := by
  rw [walkAll_eq, List.mem_flatMap]

/-- The directories that a walk meets below a directory with these entries. -/
def directoriesBelow (dir : Path) (entries : Table Bytes Entry) : List Path :=
  ((walkAll dir entries).filter fun e => e.2.isDirectory).map Prod.fst

theorem mem_walk_self (e : Entry) (path : Path) : (path, e) ∈ e.walk path := by
  cases e <;> exact List.mem_cons_self

namespace WellFormed

variable {e : Entry} {path : Path} {met : Path × Entry}

/-- What is met below the root is an entry of a directory that is met. -/
theorem exists_directory (h : e.WellFormed) (hm : met ∈ e.walk path) :
    met = (path, e) ∨ ∃ dir entries name, (dir, .directory entries) ∈ e.walk path ∧
      (name, met.2) ∈ entries ∧ Path.IsName name ∧ met.1 = Path.join dir name := by
  induction h generalizing path with
  | file data => exact .inl (List.mem_singleton.1 hm)
  | link target => exact .inl (List.mem_singleton.1 hm)
  | @directory entries sorted names below ih =>
    rcases List.mem_cons.1 hm with hm | hm
    · exact .inl hm
    · obtain ⟨e1, he1, hm1⟩ := mem_walkAll.1 hm
      rcases ih e1 he1 hm1 with rfl | ⟨dir, entries1, name, hd, hn⟩
      · exact .inr ⟨path, entries, e1.1, List.mem_cons_self, he1, names e1 he1, rfl⟩
      · exact .inr ⟨dir, entries1, name,
          List.mem_cons_of_mem _ (mem_walkAll.2 ⟨e1, he1, hd⟩), hn⟩

/-- Every entry of a directory that is met is met. -/
theorem mem_walk_of_mem {dir : Path} {entries : Table Bytes Entry} {name : Bytes} {e' : Entry}
    (h : e.WellFormed) (hd : (dir, .directory entries) ∈ e.walk path)
    (hn : (name, e') ∈ entries) : (Path.join dir name, e') ∈ e.walk path := by
  induction h generalizing path with
  | file data => cases List.mem_singleton.1 hd
  | link target => cases List.mem_singleton.1 hd
  | @directory entries1 sorted names below ih =>
    refine List.mem_cons_of_mem _ (mem_walkAll.2 ?_)
    rcases List.mem_cons.1 hd with hd | hd
    · cases hd
      exact ⟨(name, e'), hn, mem_walk_self e' _⟩
    · obtain ⟨e1, he1, hd1⟩ := mem_walkAll.1 hd
      exact ⟨e1, he1, ih e1 he1 hd1⟩

/-- The path of an entry is the beginning of all that is met from there. -/
theorem through (h : e.WellFormed) (hp : Path.stem path = path ++ [Path.slash])
    (hm : met ∈ e.walk path) : Path.Through path met.1 := by
  induction h generalizing path with
  | file data => rw [List.mem_singleton.1 hm]; exact .refl path
  | link target => rw [List.mem_singleton.1 hm]; exact .refl path
  | @directory entries sorted names below ih =>
    rcases List.mem_cons.1 hm with rfl | hm
    · exact .refl path
    · obtain ⟨e1, he1, hm1⟩ := mem_walkAll.1 hm
      have hn : Path.IsName e1.1 := names e1 he1
      exact Path.Through.trans hp hn (ih e1 he1 (Path.stem_join hn) hm1)

/-- No two entries are met at the same path. -/
theorem nodup_walk (h : e.WellFormed) (path : Path) : ((e.walk path).map Prod.fst).Nodup := by
  induction h generalizing path with
  | file data => exact List.nodup_singleton _
  | link target => exact List.nodup_singleton _
  | @directory entries sorted names below ih =>
    have hthrough : ∀ e1 ∈ entries, ∀ p ∈ (e1.2.walk (Path.join path e1.1)).map Prod.fst,
        Path.Through (Path.join path e1.1) p := by
      intro e1 he1 p hp
      obtain ⟨met, hm, rfl⟩ := List.mem_map.1 hp
      exact (below e1 he1).through (Path.stem_join (names e1 he1)) hm
    rw [walk, walkAll_eq, List.map_cons, List.map_flatMap]
    refine List.nodup_cons.2 ⟨fun hp => ?_, List.nodup_flatMap.2 ⟨fun e1 he1 => ih e1 he1 _, ?_⟩⟩
    · obtain ⟨e1, he1, hp1⟩ := List.mem_flatMap.1 hp
      exact Path.ne_of_through (names e1 he1) (hthrough e1 he1 path hp1) rfl
    · -- Two siblings have different names, and what is met below them leads through these.
      have hkeys : entries.Pairwise fun a b => a.1 ≠ b.1 := by
        refine (List.pairwise_map.1 sorted).imp fun {a b} hlt heq => ?_
        rw [heq] at hlt
        exact List.lt_irrefl _ hlt
      refine hkeys.imp_of_mem fun {a b} ha hb hne p hpa hpb => hne ?_
      rw [← Path.entryName_of_through (names a ha) (hthrough a ha p hpa),
        Path.entryName_of_through (names b hb) (hthrough b hb p hpb)]

/-- Below its root a walk meets the entries of the directories that it enters. -/
theorem mem_walkAll_iff {entries : Table Bytes Entry} (h : (Entry.directory entries).WellFormed) :
    met ∈ walkAll path entries ↔
      ∃ dir es name, (dir, .directory es) ∈ (Entry.directory entries).walk path ∧
        (name, met.2) ∈ es ∧ Path.IsName name ∧ met.1 = Path.join dir name := by
  constructor
  · intro hm
    refine (h.exists_directory (List.mem_cons_of_mem _ hm)).resolve_left fun e => ?_
    have h1 := h.nodup_walk path
    rw [walk, List.map_cons] at h1
    exact (List.nodup_cons.1 h1).1 (List.mem_map.2 ⟨met, hm, by rw [e]⟩)
  · rintro ⟨dir, es, name, hd, hn, -, hj⟩
    have e : met = (Path.join dir name, met.2) := Prod.ext hj rfl
    rw [e]
    rcases List.mem_cons.1 hd with hd | hd
    · cases hd
      exact mem_walkAll.2 ⟨(name, met.2), hn, mem_walk_self _ _⟩
    · obtain ⟨e1, he1, hd1⟩ := mem_walkAll.1 hd
      cases h with
      | directory sorted names below =>
        exact mem_walkAll.2 ⟨e1, he1, (below e1 he1).mem_walk_of_mem hd1 hn⟩

end WellFormed

end Entry

/-! ## Links at the end of a path -/

namespace Entry

theorem at?_append (place rest : Place) (e : Entry) :
    e.at? (place ++ rest) = (e.at? place).bind (Entry.at? rest) := by
  induction place generalizing e with
  | nil => rfl
  | cons name place ih =>
    cases e with
    | file data => rfl
    | link target => rfl
    | directory entries =>
      rw [List.cons_append, Entry.at?, Entry.at?]
      cases Table.get? name entries with
      | none => rfl
      | some e => exact ih e

end Entry

namespace FileSystem

/-- Where a path leads without following a link at its end: to the place where it leads at last, or to
a link. -/
theorem placeFrom_noFollow {root : Entry} {links : Nat} {place place' : Place}
    {components : List Bytes} (h : placeFrom root true links place components = .ok place') :
    ∃ stop, placeFrom root false links place components = .ok stop ∧
      (stop = place' ∨ ∃ target, root.at? stop = some (.link target)) := by
  fun_induction placeFrom root true links place components with
  | case1 links place =>
    cases h
    exact ⟨_, by rw [placeFrom], .inl rfl⟩
  | case2 links place name rest entries he hn ih =>
    obtain ⟨stop, hs, h1⟩ := ih h
    exact ⟨stop, by rw [placeFrom, he]; simp only [hn, if_true, hs], h1⟩
  | case3 links place name rest entries he hn hu ih =>
    obtain ⟨stop, hs, h1⟩ := ih h
    exact ⟨stop, by rw [placeFrom, he]; simp only [hn, hu, if_true, hs]; rfl, h1⟩
  | case5 links place name rest entries he hn hu hl hg hr =>
    cases h
    exact ⟨place ++ [name], by rw [placeFrom, he]; simp [hn, hu, hl, hg, hr], .inl rfl⟩
  | case7 links place name rest entries he hn hu hl target hg hr => simp at hr
  | case9 place name rest entries he hn hu hl target hg hr links ih =>
    by_cases hlast : rest.isEmpty = true
    · have e : root.at? (place ++ [name]) = some (.link target) := by
        rw [Entry.at?_append, he, Option.bind_some, Entry.at?, hg]
        rfl
      exact ⟨place ++ [name], by rw [placeFrom, he]; simp [hn, hu, hl, hg, hlast], .inr ⟨target, e⟩⟩
    · obtain ⟨stop, hs, h1⟩ := ih h
      simp only [dite_eq_ite] at hs
      exact ⟨stop, by rw [placeFrom, he]; simp [hn, hu, hl, hg, hlast, hs], h1⟩
  | case10 links place name rest entries he hn hu hl e hlink hg ih =>
    obtain ⟨stop, hs, h1⟩ := ih h
    exact ⟨stop, by rw [placeFrom, he]; simp [hn, hu, hl, hg, hs], h1⟩
  | case4 | case6 | case8 | case11 | case12 => cases h

section Walk

variable {fs : FileSystem} {path : Path} {entries : Table Bytes Entry}

/-- Whether the path names a link. -/
def isLink (fs : FileSystem) (path : Path) : Bool :=
  match fs.entry false path with
  | .ok (.link _) => true
  | _ => false

/-- The directories that a walk of a path enters. -/
def entered (fs : FileSystem) (path : Path) : List Path :=
  match fs.entry true path with
  | .ok (.directory entries) => path :: Entry.directoriesBelow path entries
  | _ => []

theorem entry_of_isDirectory (h : fs.isDirectory path = true) :
    ∃ entries, fs.entry true path = .ok (.directory entries) := by
  unfold isDirectory at h
  cases he : fs.entry true path with
  | error e => simp [he] at h
  | ok e =>
    cases e with
    | directory entries => exact ⟨entries, rfl⟩
    | file data => simp [he, Entry.isDirectory] at h
    | link target => simp [he, Entry.isDirectory] at h

/-- A path that leads to a directory names it, or a link. -/
theorem entry_noFollow (h : fs.entry true path = .ok (.directory entries)) :
    fs.entry false path = .ok (.directory entries) ∨
      ∃ target, fs.entry false path = .ok (.link target) := by
  unfold entry at *
  cases hp : fs.place true path with
  | error e => simp [hp] at h
  | ok place =>
    obtain ⟨stop, hs, h1⟩ : ∃ stop, fs.place false path = .ok stop ∧
        (stop = place ∨ ∃ target, fs.root.at? stop = some (.link target)) := by
      unfold FileSystem.place placeOf at *
      split at hp
      next => cases hp
      next h1 =>
        split at hp
        next => cases hp
        next h2 =>
          rw [if_neg h1, if_neg h2]
          exact placeFrom_noFollow hp
    rw [hs]
    rw [hp] at h
    rcases h1 with rfl | ⟨target, ht⟩
    · exact .inl h
    · exact .inr ⟨target, by simp [ht]⟩

/-- A walk of a directory meets the path first, as a directory unless it is a link, and then what lies
below. -/
theorem walk_eq (h : fs.entry true path = .ok (.directory entries)) :
    ∃ e : Entry, fs.walk path = (path, e) :: Entry.walkAll path entries ∧
      e.isDirectory = !fs.isLink path := by
  unfold walk isLink
  rcases entry_noFollow h with h1 | ⟨target, h1⟩
  · exact ⟨.directory entries, by rw [h1]; rfl, by rw [h1]; rfl⟩
  · exact ⟨.link target, by rw [h1, h], by rw [h1]; rfl⟩

/-- The directories that a walk lists as such. -/
theorem directories_eq (h : fs.isDirectory path = true) :
    fs.directories path =
      if fs.isLink path then (fs.entered path).tail else fs.entered path := by
  obtain ⟨entries, he⟩ := entry_of_isDirectory h
  obtain ⟨e, hw, hd⟩ := walk_eq he
  unfold directories entered
  rw [hw, he]
  cases hl : fs.isLink path <;> simp [hd, hl, Entry.directoriesBelow]

end Walk

namespace WellFormed

variable {fs : FileSystem}

theorem entry {follow : Bool} {path : Path} {e : Entry} (h : fs.WellFormed)
    (he : fs.entry follow path = .ok e) : e.WellFormed := by
  unfold FileSystem.entry at he
  split at he
  next => cases he
  next place hp =>
    split at he
    next e' h1 =>
      cases he
      exact h.root.at? h1
    next => cases he

/-- A walk enters no directory twice. -/
theorem nodup_entered (h : fs.WellFormed) (path : Path) : (fs.entered path).Nodup := by
  unfold entered
  split
  next entries he =>
    have h1 : (((Entry.directory entries).walk path).map Prod.fst).Nodup :=
      (h.entry he).nodup_walk path
    rw [Entry.walk, List.map_cons] at h1
    exact h1.sublist (List.Sublist.cons_cons path (List.filter_sublist.map Prod.fst))
  next => exact List.nodup_nil

/-- A file that a walk meets and that can be read lies in a directory that the walk enters. -/
theorem exists_entered_of_read {path : Path} {met : Path × Entry} {data : Bytes}
    (h : fs.WellFormed) (hd : fs.isDirectory path = true) (hm : met ∈ fs.walk path)
    (hr : fs.read met.1 = .ok data) :
    ∃ dir ∈ fs.entered path, ∃ name, Path.IsName name ∧ met.1 = Path.join dir name := by
  obtain ⟨entries, he⟩ := entry_of_isDirectory hd
  obtain ⟨root, hw, -⟩ := walk_eq he
  have hroot : met.1 ≠ path := by
    intro e
    rw [e, read, he] at hr
    cases hr
  have hbelow : met ∈ Entry.walkAll path entries := by
    rw [hw] at hm
    exact (List.mem_cons.1 hm).resolve_left fun e => hroot (congrArg Prod.fst e)
  obtain ⟨dir, es, name, h1, -, hn, hj⟩ := (h.entry he).mem_walkAll_iff.1 hbelow
  refine ⟨dir, ?_, name, hn, hj⟩
  rw [entered, he]
  rcases List.mem_cons.1 h1 with h1 | h1
  · cases h1
    exact List.mem_cons_self
  · exact List.mem_cons_of_mem _ (List.mem_map.2 ⟨_, List.mem_filter.2 ⟨h1, rfl⟩, rfl⟩)

end WellFormed

end FileSystem

end ThemeTemplates
