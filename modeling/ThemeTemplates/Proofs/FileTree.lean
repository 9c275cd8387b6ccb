import ThemeTemplates.Files.Edit

/-! # Well-formed files

In a file system the names of a directory are sorted and no two of them are equal, and a name is not
empty and has no slash. `Entry.WellFormed` says so of a tree of entries, and
`FileSystem.WellFormed.edit` that no change of the files breaks it.
-/

namespace ThemeTemplates

set_option autoImplicit false

/-! ## Names -/

namespace Path

/-- What an entry of a directory may be called. -/
structure IsName (name : Bytes) : Prop where
  ne_nil : name ≠ []
  noSlash : slash ∉ name

theorem isName_here : IsName here := ⟨by decide, by decide⟩

theorem noSlash_of_mem_pieces {s p : Bytes} (h : p ∈ Bytes.pieces (· == slash) s) : slash ∉ p := by
  induction s generalizing p with
  | nil =>
    rw [List.mem_singleton.1 h]
    exact List.not_mem_nil
  | cons b s ih =>
    rw [Bytes.pieces] at h
    split at h
    next =>
      rcases List.mem_cons.1 h with rfl | h
      · exact List.not_mem_nil
      · exact ih h
    next hb _ =>
      rw [List.mem_singleton.1 h]
      exact fun hs => ne_of_beq_false hb (List.mem_singleton.1 hs).symm
    next q qs hb hq =>
      rw [hq] at ih
      rcases List.mem_cons.1 h with rfl | h
      · have h1 : slash ∉ q := ih List.mem_cons_self
        exact List.not_mem_cons_of_ne_of_not_mem (ne_of_beq_false hb).symm h1
      · exact ih (List.mem_cons_of_mem _ h)

theorem isName_of_mem_names {p name : Bytes} (h : name ∈ names p) : IsName name := by
  obtain ⟨h1, h2⟩ := List.mem_filter.1 h
  exact ⟨by simpa using h2, noSlash_of_mem_pieces h1⟩

theorem isName_of_mem_components {p name : Bytes} (h : name ∈ components p) : IsName name := by
  rcases List.mem_append.1 h with h | h
  · exact isName_of_mem_names h
  · split at h
    next =>
      rw [List.mem_singleton.1 h]
      exact isName_here
    next => exact absurd h List.not_mem_nil

end Path

/-- Names, each of which may be that of an entry. -/
def Place.Proper (place : Place) : Prop := ∀ name ∈ place, Path.IsName name

/-! ## Trees of entries -/

namespace Entry

/-- In every directory the names are sorted. -/
inductive WellFormed : Entry → Prop
  | file (data : Bytes) : WellFormed (.file data)
  | link (target : Path) : WellFormed (.link target)
  | directory {entries : Table Bytes Entry} (sorted : entries.Sorted)
      (names : ∀ e ∈ entries, Path.IsName e.1) (below : ∀ e ∈ entries, e.2.WellFormed) :
      WellFormed (.directory entries)

namespace WellFormed

theorem emptyDirectory : WellFormed (.directory []) :=
  .directory .nil (fun _ h => absurd h List.not_mem_nil) (fun _ h => absurd h List.not_mem_nil)

variable {e : Entry}

theorem at? {e' : Entry} {place : Place} (h : e.WellFormed) (he : e.at? place = some e') :
    e'.WellFormed := by
  induction place generalizing e with
  | nil =>
    cases he
    exact h
  | cons name place ih =>
    cases h with
    | file data => cases he
    | link target => cases he
    | directory sorted names below =>
      rw [Entry.at?] at he
      split at he
      next e1 h1 => exact ih (below _ (Table.mem_of_get? h1)) he
      next => cases he

theorem insert {entries : Table Bytes Entry} {name : Bytes}
    (h : (Entry.directory entries).WellFormed) (hn : Path.IsName name) (he : e.WellFormed) :
    (Entry.directory (Table.insert name e entries)).WellFormed := by
  cases h with
  | directory sorted names below =>
    refine .directory (sorted.insert name e) (fun e' h => ?_) (fun e' h => ?_)
    · rcases Table.mem_of_mem_insert h with rfl | h
      · exact hn
      · exact names e' h
    · rcases Table.mem_of_mem_insert h with rfl | h
      · exact he
      · exact below e' h

theorem erase {entries : Table Bytes Entry} (h : (Entry.directory entries).WellFormed)
    (name : Bytes) : (Entry.directory (Table.erase name entries)).WellFormed := by
  cases h with
  | directory sorted names below =>
    exact .directory (sorted.erase name) (fun e' h => names e' (List.mem_filter.1 h).1)
      (fun e' h => below e' (List.mem_filter.1 h).1)

theorem alter {f : Option Entry → Option Entry} (hf : ∀ o, ∀ e ∈ f o, e.WellFormed)
    {place : Place} (hp : place.Proper) (h : e.WellFormed) : (e.alter f place).WellFormed := by
  fun_induction Entry.alter f place e with
  | case1 e =>
    cases he : f (some e) with
    | none => exact h
    | some e' => exact hf _ e' he
  | case2 name entries e' he => exact h.insert (hp name List.mem_cons_self) (hf _ e' he)
  | case3 name entries he => exact h.erase name
  | case4 name place entries hplace e' he ih =>
    have h1 : e'.WellFormed := by
      cases h with
      | directory sorted names below => exact below _ (Table.mem_of_get? he)
    exact h.insert (hp name List.mem_cons_self)
      (ih (fun n hn => hp n (List.mem_cons_of_mem _ hn)) h1)
  | case5 => exact h
  | case6 => exact h

end WellFormed

end Entry

/-! ## Places of paths -/

namespace FileSystem

theorem proper_of_placeFrom {root : Entry} {follow : Bool} {links : Nat} {place place' : Place}
    {components : List Bytes} (hp : place.Proper) (hc : Place.Proper components)
    (h : placeFrom root follow links place components = .ok place') : place'.Proper := by
  have hsnoc : ∀ {p : Place} {name : Bytes}, p.Proper → Path.IsName name →
      Place.Proper (p ++ [name]) :=
    fun hp hn => List.forall_mem_append.2 ⟨hp, List.forall_mem_singleton.2 hn⟩
  fun_induction placeFrom root follow links place components with
  | case1 links place =>
    cases h
    exact hp
  | case2 links place name rest entries _ _ ih => exact ih hp (List.forall_mem_cons.1 hc).2 h
  | case3 links place name rest entries _ _ _ ih =>
    exact ih (fun n hn => hp n (List.dropLast_subset _ hn)) (List.forall_mem_cons.1 hc).2 h
  | case5 | case7 =>
    cases h
    exact hsnoc hp (List.forall_mem_cons.1 hc).1
  | case9 place name rest entries _ _ _ _ target _ _ links ih =>
    refine ih ?_ (List.forall_mem_append.2
      ⟨fun n hn => Path.isName_of_mem_components hn, (List.forall_mem_cons.1 hc).2⟩) h
    split
    next => exact fun n hn => absurd hn List.not_mem_nil
    next => exact hp
  | case10 links place name rest entries _ _ _ _ e _ _ ih =>
    exact ih (hsnoc hp (List.forall_mem_cons.1 hc).1) (List.forall_mem_cons.1 hc).2 h
  | case4 | case6 | case8 | case11 | case12 => cases h

/-- The files are well formed, and the place of the working directory could be one of theirs. -/
structure WellFormed (fs : FileSystem) : Prop where
  root : fs.root.WellFormed
  cwd : fs.cwd.Proper

namespace WellFormed

theorem empty : FileSystem.empty.WellFormed :=
  ⟨.emptyDirectory, fun _ h => absurd h List.not_mem_nil⟩

variable {fs : FileSystem}

theorem placeOf {follow : Bool} {path : Path} {components : List Bytes} {place : Place}
    (h : fs.WellFormed) (hc : Place.Proper components)
    (hp : fs.placeOf follow path components = .ok place) : place.Proper := by
  have ho : (fs.origin path).Proper := by
    unfold origin
    split
    next => exact fun n hn => absurd hn List.not_mem_nil
    next => exact h.cwd
  unfold FileSystem.placeOf at hp
  split at hp
  next => cases hp
  next =>
    split at hp
    next => cases hp
    next => exact proper_of_placeFrom ho hc hp

theorem place {follow : Bool} {path : Path} {place : Place} (h : fs.WellFormed)
    (hp : fs.place follow path = .ok place) : place.Proper :=
  h.placeOf (fun _ hn => Path.isName_of_mem_components hn) hp

/-! ## Changes -/

theorem set {place : Place} {e : Option Entry} (h : fs.WellFormed) (hp : place.Proper)
    (he : ∀ e' ∈ e, e'.WellFormed) : (fs.set place e).WellFormed :=
  ⟨h.root.alter (fun _ => he) hp, h.cwd⟩

theorem set_some {place : Place} {e : Entry} (h : fs.WellFormed) (hp : place.Proper)
    (he : e.WellFormed) : (fs.set place (some e)).WellFormed := by
  refine h.set hp fun e' he' => ?_
  cases he'
  exact he

theorem makeDirectory? {fs' : FileSystem} {path : Path} (h : fs.WellFormed)
    (hm : fs.makeDirectory? path = some fs') : fs'.WellFormed := by
  unfold FileSystem.makeDirectory? at hm
  split at hm
  next =>
    cases hm
    exact h
  next =>
    split at hm
    next => cases hm
    next place hp =>
      split at hm
      next => cases hm
      next =>
        cases hm
        exact h.set_some (h.place hp) .emptyDirectory

theorem makeDirectories (h : fs.WellFormed) (above : Path) (names : List Bytes) :
    (fs.makeDirectories above names).WellFormed := by
  induction names generalizing fs above with
  | nil => exact h
  | cons name names ih =>
    unfold FileSystem.makeDirectories
    dsimp only
    split
    next => exact h
    next fs' hm => exact ih (h.makeDirectory? hm) (Path.join above name)

theorem makeAll (h : fs.WellFormed) (path : Path) : (fs.makeAll path).WellFormed := by
  unfold FileSystem.makeAll
  split
  next => exact h.makeDirectories _ _
  next => exact h

theorem mount {e : Entry} (h : fs.WellFormed) (path : Path) (he : e.WellFormed) :
    (fs.mount path e).WellFormed := by
  have h1 : (fs.makeAll path).WellFormed := h.makeAll path
  unfold FileSystem.mount
  dsimp only
  split
  next => exact h1
  next place hp => exact h1.set_some (h1.place hp) he

theorem writeFile (h : fs.WellFormed) (path : Path) (data : Bytes) :
    (fs.writeFile path data).WellFormed := by
  unfold FileSystem.writeFile
  split
  next => exact h
  next place hp =>
    split
    next => exact h
    next => exact h.set_some (h.place hp) (.file data)

theorem move (h : fs.WellFormed) (source target : Path) : (fs.move source target).WellFormed := by
  unfold FileSystem.move
  split
  next => exact h
  next s hs =>
    split
    next => exact h
    next e he =>
      split
      next => exact h
      next t ht =>
        split
        next => exact h
        next =>
          have htp : t.Proper := by
            unfold targetPlace at ht
            split at ht
            next => exact h.placeOf (fun _ hn => Path.isName_of_mem_names hn) ht
            next => exact h.place ht
          have h1 : (fs.set s none).WellFormed := h.set (h.place hs) fun _ he => nomatch he
          exact h1.set_some htp (h.root.at? he)

theorem removeEntry (h : fs.WellFormed) (path : Path) : (fs.removeEntry path).WellFormed := by
  unfold FileSystem.removeEntry
  split
  next => exact h
  next place hp =>
    split
    next => exact h.set (h.place hp) fun _ he => nomatch he
    next => exact h.set_some (h.place hp) .emptyDirectory

theorem makeLink (h : fs.WellFormed) (path target : Path) :
    (fs.makeLink path target).WellFormed := by
  unfold FileSystem.makeLink
  split
  next => exact h
  next place hp =>
    split
    next => exact h
    next => exact h.set_some (h.place hp) (.link target)

/-- No change breaks the files. -/
theorem edit (h : fs.WellFormed) (e : Edit) : (fs.edit e).WellFormed := by
  unfold FileSystem.edit
  cases e with
  | write path data => exact (h.makeAll _).writeFile path data
  | makeDirectory path => exact h.makeAll path
  | remove path => exact h.removeEntry path
  | rename source target =>
    dsimp only
    split
    next => exact h.move source target
    next => exact h
  | symlink path target =>
    dsimp only
    split
    next => exact h.makeLink path target
    next => exact h

end WellFormed

end FileSystem

end ThemeTemplates
