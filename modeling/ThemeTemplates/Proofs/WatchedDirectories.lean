import ThemeTemplates.Proofs.RebuildHistory
import ThemeTemplates.Proofs.ThemeWalk

/-! # The directories that are watched

In development mode a rebuild that finds the directory of the theme watches what `FileSystem.directories`
lists there, whether the templates compile or not, and any other rebuild leaves the watching alone.

* `Session.watched_turn` is what one turn does to the directories that are watched.
* `Session.watched_history`: after any turns they are the directories that the walk of the last theme
  that was found enters, none of them twice, and so those of the files that can be read there.
  `Session.watched_link`: only a root that is a link is entered and not watched.
-/

namespace ThemeTemplates

set_option autoImplicit false

variable {Context : Type}

/-! ## The directory of a rebuild -/

namespace Rebuild

/-- The directory of the theme, if the rebuild finds it: the source answers, and the path of the theme
leads to a directory. -/
def directory? (options : Options) (b : Rebuild) : Option Path :=
  match b.answer with
  | .error _ => none
  | .ok theme =>
    if b.files.isDirectory (options.themePath theme) then some (options.themePath theme) else none

/-- What is watched after the rebuild, if it finds the directory of the theme. -/
def watched? (options : Options) (b : Rebuild) : Option (List Path) :=
  (b.directory? options).map b.files.watchable

/-- Whether every directory that the rebuild sets out to watch can be watched. -/
def subscribes (options : Options) (b : Rebuild) : Bool :=
  (b.directory? options).all fun path => (b.files.directories path).all b.files.isWatchable

theorem isDirectory_of_directory? {options : Options} {b : Rebuild} {path : Path}
    (h : b.directory? options = some path) : b.files.isDirectory path = true := by
  unfold directory? at h
  split at h
  next => cases h
  next theme ht =>
    split at h
    next hd =>
      cases h
      exact hd
    next => cases h

end Rebuild

namespace Registry

variable (r : Registry Context) (fs : FileSystem) (answer : Except String String)

@[simp] theorem options_regenerate : (r.regenerate fs answer).1.options = r.options := by
  rcases r.regenerate_cases fs answer with ⟨e, -, h | ⟨path, h⟩⟩ | ⟨theme, templates, -, -, h⟩
  · rw [h]
  · rw [h, options_watch]
  · rw [h, options_watch]
    rfl

/-- A rebuild that finds no directory of a theme fails, and changes nothing. -/
theorem regenerate_of_directory?_none {outcome : Except RegistryError Unit}
    (h : (⟨fs, answer, outcome⟩ : Rebuild).directory? r.options = none) :
    ∃ e, r.regenerate fs answer = (r, .error e) := by
  unfold Rebuild.directory? at h
  unfold regenerate activeTheme themeDirectory
  cases answer with
  | error message => exact ⟨.config message, rfl⟩
  | ok theme =>
    have hd : ¬fs.isDirectory (r.options.themePath theme) = true := by
      intro hd
      simp [hd] at h
    exact ⟨.themeNotFound (r.options.themePath theme), by simp [hd]⟩

/-- A rebuild that finds the directory watches it, however it ends. -/
theorem regenerate_of_directory?_some {outcome : Except RegistryError Unit} {path : Path}
    (h : (⟨fs, answer, outcome⟩ : Rebuild).directory? r.options = some path) :
    ∃ r' : Registry Context, r'.options = r.options ∧
      (r.regenerate fs answer).1 = r'.watch fs path := by
  unfold Rebuild.directory? at h
  unfold regenerate activeTheme themeDirectory rebuild
  cases answer with
  | error message => cases h
  | ok theme =>
    by_cases hd : fs.isDirectory (r.options.themePath theme) = true
    · simp only [hd, if_true, Option.some.injEq] at h
      subst h
      simp only [hd, if_true]
      cases Generation.compile r.functions r.options.mandatory fs (r.options.themePath theme) with
      | ok templates => exact ⟨r.commit theme templates, rfl, rfl⟩
      | error e => exact ⟨r, rfl, rfl⟩
    · simp [hd] at h

theorem watched_regenerate (hd : r.options.development = true)
    (outcome : Except RegistryError Unit) :
    (r.regenerate fs answer).1.watched =
      ((⟨fs, answer, outcome⟩ : Rebuild).watched? r.options).getD r.watched := by
  unfold Rebuild.watched?
  cases hp : (⟨fs, answer, outcome⟩ : Rebuild).directory? r.options with
  | none =>
    obtain ⟨e, he⟩ := r.regenerate_of_directory?_none fs answer hp
    rw [he]
    rfl
  | some path =>
    obtain ⟨r', ho, he⟩ := r.regenerate_of_directory?_some fs answer hp
    rw [he, watch, ho, if_pos hd]
    rfl

end Registry

/-! ## Turns -/

namespace Session

variable (s : Session Context)

/-- The rebuild of a turn, if the registry that it is made of is served afterwards. A registry that
cannot be loaded is not. -/
def served? (t : Turn) : Option Rebuild :=
  (s.rebuild? t).filter fun b => !t.loads || b.succeeded

def turns (ts : List Turn) : Session Context := ts.foldl turn s

/-- The rebuilds that are made in some turns of registries that are then served. -/
def history (s : Session Context) : List Turn → List Rebuild
  | [] => []
  | t :: ts => (s.served? t).toList ++ (s.turn t).history ts

theorem files_of_served? {s : Session Context} {t : Turn} {b : Rebuild}
    (h : s.served? t = some b) : b.files = s.files := by
  have hb : s.rebuild? t = some b := (Option.filter_eq_some_iff.1 h).1
  rcases s.turn_cases t with ⟨h1, -⟩ | ⟨-, h1, -⟩ | ⟨-, h1, -⟩ <;> rw [hb] at h1 <;> cases h1 <;> rfl

/-- What a turn does to the registry served: at most a rebuild, of that one with some queue, or of a
new one, where the rebuild succeeds. -/
theorem turn_registry (t : Turn) :
    (s.served? t = none ∧ ∃ q, (s.turn t).registry = { s.registry with queue := q }) ∨
      ∃ (b : Rebuild) (r : Registry Context), s.served? t = some b ∧ r.options = s.registry.options ∧
        b = ⟨s.files, s.source.answer, (r.regenerate s.files s.source.answer).2⟩ ∧
        (s.turn t).registry = (r.regenerate s.files s.source.answer).1 ∧
        (r.watched = s.registry.watched ∨ b.succeeded = true) := by
  unfold served?
  rcases s.turn_cases t with ⟨hb, q, hr⟩ | ⟨hl, hb, q, hr⟩ | ⟨hl, hb, hr⟩
  · exact .inl ⟨by rw [hb]; rfl, q, hr⟩
  · refine .inr ⟨s.attempt, { s.registry with queue := q }, by rw [hb]; simp [hl], rfl, ?_, hr, .inl rfl⟩
    rw [Session.attempt_queue]
  · rw [hb]
    by_cases hsucc : s.loading.succeeded = true
    · rw [if_pos hsucc] at hr
      exact .inr ⟨s.loading, .new s.registry.options s.registry.functions, by simp [hsucc], rfl, rfl,
        hr, .inr hsucc⟩
    · rw [if_neg hsucc] at hr
      exact .inl ⟨by simp [hl, hsucc], s.registry.queue, hr⟩

theorem options_turn (t : Turn) : (s.turn t).registry.options = s.registry.options := by
  rcases s.turn_registry t with ⟨-, q, hr⟩ | ⟨b, r, -, ho, -, hr, -⟩
  · rw [hr]
  · rw [hr, Registry.options_regenerate, ho]

/-- What a turn does to the directories that are watched. -/
theorem watched_turn (hd : s.registry.options.development = true) (t : Turn) :
    (s.turn t).registry.watched =
      ((s.served? t).bind (Rebuild.watched? s.registry.options)).getD s.registry.watched := by
  rcases s.turn_registry t with ⟨hb, q, hr⟩ | ⟨b, r, hb, ho, rfl, hr, hw⟩
  · rw [hb, hr]
    rfl
  · rw [hb, hr, Option.bind_some, ← ho, r.watched_regenerate _ _ (ho ▸ hd)
      (r.regenerate s.files s.source.answer).2]
    rcases hw with hw | hw
    · rw [hw]
    · -- A rebuild that succeeds finds its directory, so what was watched before does not count.
      unfold Rebuild.watched?
      cases hp : Rebuild.directory? r.options
          ⟨s.files, s.source.answer, (r.regenerate s.files s.source.answer).2⟩ with
      | some path => rfl
      | none =>
        obtain ⟨e, he⟩ := r.regenerate_of_directory?_none _ _ hp
        rw [he] at hw
        cases hw

/-- A turn whose rebuild finds no directory of a theme fails to rebuild, and leaves the watching as it
was. -/
theorem watched_turn_of_none {t : Turn} {b : Rebuild} (hd : s.registry.options.development = true)
    (hb : s.served? t = some b) (hn : b.directory? s.registry.options = none) :
    b.succeeded = false ∧ (s.turn t).registry.watched = s.registry.watched := by
  constructor
  · rcases s.turn_registry t with ⟨h, -⟩ | ⟨b', r, h, ho, rfl, -⟩
    · rw [hb] at h
      cases h
    · rw [hb] at h
      cases h
      rw [← ho] at hn
      obtain ⟨e, he⟩ := r.regenerate_of_directory?_none _ _ hn
      rw [he]
      rfl
  · rw [s.watched_turn hd, hb, Option.bind_some, Rebuild.watched?, hn]
    rfl

/-! ## Runs -/

theorem watched_turns (hd : s.registry.options.development = true) (ts : List Turn) :
    (s.turns ts).registry.watched =
      ((s.history ts).reverse.findSome? (Rebuild.watched? s.registry.options)).getD
        s.registry.watched := by
  induction ts generalizing s with
  | nil => rfl
  | cons t ts ih =>
    have ht : (s.turn t).registry.options = s.registry.options := s.options_turn t
    rw [turns, List.foldl_cons, ← turns, ih _ (ht ▸ hd), ht, watched_turn _ hd, history,
      List.reverse_append, List.findSome?_append, Option.getD_or]
    cases s.served? t with
    | none => rfl
    | some b => cases h : b.watched? s.registry.options <;> simp [h]

theorem options_turns (ts : List Turn) : (s.turns ts).registry.options = s.registry.options := by
  induction ts generalizing s with
  | nil => rfl
  | cons t ts ih => rw [turns, List.foldl_cons, ← turns, ih, options_turn]

theorem wellFormed_turn (h : s.files.WellFormed) (t : Turn) : (s.turn t).files.WellFormed := by
  cases t with
  | ask => exact h
  | work => exact h
  | step t =>
    cases t with
    | edit e => exact h.edit e
    | load =>
      rw [turn, step]
      split <;> exact h
    | _ => exact h

theorem wellFormed_history {s : Session Context} (h : s.files.WellFormed) {ts : List Turn}
    {b : Rebuild} (hb : b ∈ s.history ts) : b.files.WellFormed := by
  induction ts generalizing s with
  | nil => cases hb
  | cons t ts ih =>
    rcases List.mem_append.1 hb with hb | hb
    · rw [files_of_served? (Option.mem_toList.1 hb)]
      exact h
    · exact ih (s.wellFormed_turn h t) hb

end Session

/-- The directories are those that a walk of the path enters, but for a root that is a link. None of
them is there twice, and the one that holds a file of the walk is there, unless it is such a root. -/
structure FileSystem.Watches (fs : FileSystem) (path : Path) (dirs : List Path) : Prop where
  dirs_eq : dirs = if fs.isLink path then (fs.entered path).tail else fs.entered path
  head : (fs.entered path).head? = some path
  nodup : (fs.entered path).Nodup
  mem : ∀ met ∈ fs.walk path, ∀ data, fs.read met.1 = .ok data →
    ∃ dir name, Path.IsName name ∧ met.1 = Path.join dir name ∧
      (dir ∈ dirs ∨ fs.isLink path = true ∧ dir = path)

namespace Rebuild

theorem watches {options : Options} {b : Rebuild} {path : Path} (hf : b.files.WellFormed)
    (hp : b.directory? options = some path) (hs : b.subscribes options = true) :
    b.files.Watches path (b.files.watchable path) := by
  have hd : b.files.isDirectory path = true := isDirectory_of_directory? hp
  obtain ⟨entries, he⟩ := FileSystem.entry_of_isDirectory hd
  have hhead : b.files.entered path = path :: Entry.directoriesBelow path entries := by
    rw [FileSystem.entered, he]
  have hdirs : b.files.watchable path =
      if b.files.isLink path then (b.files.entered path).tail else b.files.entered path := by
    rw [← FileSystem.directories_eq hd]
    rw [subscribes, hp, Option.all_some] at hs
    exact List.takeWhile_eq_self_iff.2 (List.all_eq_true.1 hs)
  refine ⟨hdirs, by rw [hhead]; rfl, hf.nodup_entered path, fun met hm data hr => ?_⟩
  obtain ⟨dir, hdir, name, hn, hj⟩ := hf.exists_entered_of_read hd hm hr
  refine ⟨dir, name, hn, hj, ?_⟩
  rw [hdirs]
  by_cases hl : b.files.isLink path = true
  · rw [if_pos hl]
    rw [hhead] at hdir ⊢
    exact (List.mem_cons.1 hdir).symm.imp_right fun e => ⟨hl, e⟩
  · rw [if_neg hl]
    exact .inl hdir

end Rebuild

namespace Session

/-- After any turns in development mode, nothing is watched, if no rebuild found the directory of its
theme, or else the directories of the last theme that was found. A turn whose rebuild finds none leaves
the watching as it is. -/
theorem watched_history (files : FileSystem) (source : ThemeSource) (options : Options)
    (functions : Functions Context) (ts : List Turn) (hf : files.WellFormed)
    (hd : options.development = true)
    (hs : ∀ b ∈ (start files source options functions).history ts, b.subscribes options = true) :
    let s := (start files source options functions).turns ts
    let bs := (start files source options functions).history ts
    (((∀ b ∈ bs, b.directory? options = none) ∧ s.registry.watched = []) ∨
      ∃ earlier b later path, bs = earlier ++ b :: later ∧ b.directory? options = some path ∧
        (∀ b' ∈ later, b'.directory? options = none) ∧
        b.files.Watches path s.registry.watched) ∧
    ∀ t b, s.served? t = some b → b.directory? options = none →
      b.succeeded = false ∧ (s.turn t).registry.watched = s.registry.watched := by
  intro s bs
  have ho : s.registry.options = options := options_turns _ ts
  have hw : s.registry.watched = (bs.reverse.findSome? (Rebuild.watched? options)).getD [] :=
    watched_turns (start files source options functions) hd ts
  refine ⟨?_, fun t b hb hn => s.watched_turn_of_none (ho ▸ hd) hb (ho ▸ hn)⟩
  cases hlast : bs.reverse.findSome? (Rebuild.watched? options) with
  | none =>
    rw [hlast] at hw
    refine .inl ⟨fun b hb => ?_, hw⟩
    exact Option.map_eq_none_iff.1 (List.findSome?_eq_none_iff.1 hlast b (List.mem_reverse.2 hb))
  | some dirs =>
    rw [hlast] at hw
    obtain ⟨later, b, earlier, hbs, hb, hnone⟩ := List.findSome?_eq_some_iff.1 hlast
    obtain ⟨path, hp, rfl⟩ := Option.map_eq_some_iff.1 hb
    have hsplit : bs = earlier.reverse ++ b :: later.reverse := by
      rw [← List.reverse_reverse bs, hbs]
      simp
    have hmem : b ∈ bs := by
      rw [hsplit]
      exact List.mem_append_right _ List.mem_cons_self
    refine .inr ⟨earlier.reverse, b, later.reverse, path, hsplit, hp, fun b' hb' => ?_, ?_⟩
    · exact Option.map_eq_none_iff.1 (hnone b' (List.mem_reverse.1 hb'))
    · rw [hw]
      exact b.watches (wellFormed_history hf hmem) hp (hs b hmem)

/-- A theme with one template, and a link to it. -/
def linkedTheme : FileSystem :=
  (FileSystem.empty.mount (Utf8.ofString "themes/real/index.hbs") (.file [0x78])).edit
    (.symlink (Utf8.ofString "themes/casper") (Utf8.ofString "real"))

theorem wellFormed_linkedTheme : linkedTheme.WellFormed :=
  (FileSystem.WellFormed.empty.mount _ (.file _)).edit _

def watching : Options := { development := true, mandatory := ["index"] }

/-- A rebuild finds the theme, and the source fails for the next one. -/
theorem watched_history_failed :
    let start := start linkedTheme (.settable (.ok "real")) watching ([] : Functions Unit)
    let ts : List Turn := [.step .regenerate, .step (.setAnswer (.error "down")), .step .request]
    linkedTheme.WellFormed ∧ watching.development = true ∧
      (∀ b ∈ start.history ts, b.subscribes watching = true) ∧
      (start.history ts).map (Rebuild.directory? watching) =
        [some (watching.themePath "real"), none] ∧
      ∃ (b : Rebuild) (path : Path), b.directory? watching = some path ∧
        b.files.Watches path (start.turns ts).registry.watched := by
  intro start ts
  have hs : ∀ b ∈ start.history ts, b.subscribes watching = true := List.all_eq_true.1 (by cbv)
  have hp : (start.history ts).map (Rebuild.directory? watching) =
      [some (watching.themePath "real"), none] := by cbv
  refine ⟨wellFormed_linkedTheme, rfl, hs, hp, ?_⟩
  obtain ⟨⟨h, -⟩ | ⟨earlier, b, later, path, -, hb, -, hw⟩, -⟩ :=
    watched_history linkedTheme (.settable (.ok "real")) watching ([] : Functions Unit) ts
      wellFormed_linkedTheme rfl hs
  · have hmem : some (watching.themePath "real") ∈
        (start.history ts).map (Rebuild.directory? watching) := by
      rw [hp]
      exact List.mem_cons_self
    obtain ⟨b, hb, he⟩ := List.mem_map.1 hmem
    rw [h b hb] at he
    cases he
  · exact ⟨b, path, hb, hw⟩

/-- The directory of a theme is a link. A walk enters it and its template is served, but nothing is
watched. -/
theorem watched_link :
    let start := start linkedTheme (.fixed "casper") watching ([] : Functions Unit)
    let s := start.turns [.step .regenerate]
    let path := watching.themePath "casper"
    linkedTheme.WellFormed ∧
      (∀ b ∈ start.history [.step .regenerate], b.subscribes watching = true) ∧
      (start.history [.step .regenerate]).map (Rebuild.directory? watching) = [some path] ∧
      s.registry.committed.names = ["index"] ∧ linkedTheme.entered path = [path] ∧
      s.registry.watched = [] := by
  refine ⟨wellFormed_linkedTheme, List.all_eq_true.1 ?_, ?_, ?_, ?_, ?_⟩ <;> cbv

end Session

end ThemeTemplates
