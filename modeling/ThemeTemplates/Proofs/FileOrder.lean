import ThemeTemplates.Proofs.RebuildHistory

/-! # The order of the files

A rebuild adds one template file after another and stops at the first that it cannot add. Whether it
succeeds, and what it commits then, depends only on the names and the bytes of the files, and not on
the directories where they lie or the order in which they are met.

* `Generation.files fs path` are the template files below a path.
* `Generation.Compilable`: the names of some files are distinct, each file compiles, and no
  mandatory name is missing. Where all can be read, a rebuild succeeds just when its files are so
  (`compilable_of_compile`, `exists_compile`).
* `Generation.Holds`: a table has the trees of some files and nothing else. Files in another order
  give the same table (`Holds.eq_of_perm`), so they are rebuilt to the same templates
  (`compile_of_perm`, `Registry.regenerate_of_perm`).
-/

namespace ThemeTemplates

set_option autoImplicit false

namespace Table

variable {κ α : Type} [DecidableEq κ] [LT κ] [Std.Asymm (α := κ) (· < ·)]

omit [DecidableEq κ] in
theorem Sorted.nodup {t : Table κ α} (h : t.Sorted) : t.Nodup := by
  refine (List.pairwise_map.1 h).imp ?_
  rintro e _ hlt rfl
  exact Std.Asymm.asymm _ _ hlt hlt

theorem Sorted.get?_eq_some_iff {k : κ} {v : α} {t : Table κ α} (h : t.Sorted) :
    t.get? k = some v ↔ (k, v) ∈ t := by
  refine ⟨mem_of_get?, fun hm => ?_⟩
  induction t with
  | nil => cases hm
  | cons e t ih =>
    obtain ⟨k', w⟩ := e
    obtain ⟨h1, h2⟩ := List.pairwise_cons.1 h
    rcases List.mem_cons.1 hm with hm | hm
    · cases hm
      rw [get?, if_pos rfl]
    · have hlt : k' < k := h1 k (List.mem_map_of_mem (f := Prod.fst) hm)
      have hk : k ≠ k' := by
        rintro rfl
        exact Std.Asymm.asymm _ _ hlt hlt
      rw [get?, if_neg hk, ih h2 hm]

/-- Sorted tables that give the same values are the same. -/
theorem Sorted.ext {t t' : Table κ α} (h : t.Sorted) (h' : t'.Sorted)
    (he : ∀ k, t.get? k = t'.get? k) : t = t' := by
  have hp : t.Perm t' := by
    refine (List.perm_ext_iff_of_nodup h.nodup h'.nodup).2 ?_
    rintro ⟨k, v⟩
    rw [← h.get?_eq_some_iff, ← h'.get?_eq_some_iff, he k]
  refine hp.eq_of_pairwise ?_ (List.pairwise_map.1 h) (List.pairwise_map.1 h')
  intro e e' _ _ hlt hgt
  exact absurd hgt (Std.Asymm.asymm _ _ hlt)

end Table

namespace Generation

variable {Context : Type} {functions : Functions Context} {mandatory : List String}

/-! ## Template files -/

/-- The template file that an entry is, if it can be read: the name of the template and the bytes. -/
def file? (fs : FileSystem) (met : Path × Entry) : Option (String × Bytes) :=
  (templateName? met).bind fun name => (fs.read met.1).toOption.map fun data => (name, data)

/-- The template files below a path, in the order in which they are met. -/
def files (fs : FileSystem) (path : Path) : List (String × Bytes) :=
  (fs.walk path).filterMap (file? fs)

/-- The entries of a directory can be listed, and the bytes of a template file can be read. -/
structure IsReadable (fs : FileSystem) (met : Path × Entry) : Prop where
  listed : met.2.isDirectory = true → fs.list met.1 = .ok ()
  read : ∀ name, templateName? met = some name → ∃ data, fs.read met.1 = .ok data

theorem exists_of_isOk {ε α : Type} {x : Except ε α} (h : x.isOk = true) : ∃ a, x = .ok a := by
  cases x with
  | error e => cases h
  | ok a => exact ⟨a, rfl⟩

theorem isReadable_iff {fs : FileSystem} {met : Path × Entry} : IsReadable fs met ↔
    (met.2.isDirectory = true → (fs.list met.1).isOk = true) ∧
      ((templateName? met).isSome = true → (fs.read met.1).isOk = true) := by
  constructor
  · rintro ⟨hl, hr⟩
    refine ⟨fun hd => by rw [hl hd]; rfl, fun hn => ?_⟩
    obtain ⟨name, hn⟩ := Option.isSome_iff_exists.1 hn
    obtain ⟨data, hd⟩ := hr name hn
    rw [hd]
    rfl
  · rintro ⟨hl, hr⟩
    refine ⟨fun hd => ?_, fun name hn => exists_of_isOk (hr (by rw [hn]; rfl))⟩
    obtain ⟨⟨⟩, h⟩ := exists_of_isOk (hl hd)
    exact h

instance (fs : FileSystem) (met : Path × Entry) : Decidable (IsReadable fs met) :=
  decidable_of_iff _ isReadable_iff.symm

/-- The directory of a theme is there, and all that is met in it can be read. -/
structure Readable (fs : FileSystem) (path : Path) : Prop where
  present : fs.isDirectory path = true
  entries : ∀ met ∈ fs.walk path, IsReadable fs met

/-- Files from which a rebuild can make a generation. -/
structure Compilable (functions : Functions Context) (mandatory : List String)
    (files : List (String × Bytes)) : Prop where
  distinct : (files.map Prod.fst).Nodup
  compile : ∀ f ∈ files, ∃ root, Template.compile functions f.2 f.1 = .ok root
  mandatory : ∀ name ∈ mandatory, name ∈ files.map Prod.fst

theorem Readable.of_all {fs : FileSystem} {path : Path} (hp : fs.isDirectory path = true)
    (h : ((fs.walk path).all fun met => decide (IsReadable fs met)) = true) : Readable fs path :=
  ⟨hp, by simpa only [List.all_eq_true, decide_eq_true_eq] using h⟩

theorem file?_eq_some_iff {fs : FileSystem} {met : Path × Entry} {f : String × Bytes} :
    file? fs met = some f ↔ templateName? met = some f.1 ∧ fs.read met.1 = .ok f.2 := by
  obtain ⟨name, data⟩ := f
  unfold file?
  cases templateName? met with
  | none => simp
  | some name' => cases fs.read met.1 <;> simp [Except.toOption]

theorem mem_files_iff {fs : FileSystem} {path : Path} {f : String × Bytes} : f ∈ files fs path ↔
    ∃ met ∈ fs.walk path, templateName? met = some f.1 ∧ fs.read met.1 = .ok f.2 := by
  simp only [files, List.mem_filterMap, file?_eq_some_iff]

theorem IsReadable.map_fst_file? {fs : FileSystem} {met : Path × Entry} (h : IsReadable fs met) :
    (file? fs met).map Prod.fst = templateName? met := by
  cases hn : templateName? met with
  | none => simp [file?, hn]
  | some name =>
    obtain ⟨data, hd⟩ := h.read name hn
    have h1 : file? fs met = some (name, data) := file?_eq_some_iff.2 ⟨hn, hd⟩
    rw [h1]
    rfl

/-- Where all can be read, the names of the files are those that a rebuild meets. -/
theorem names_walk {fs : FileSystem} {path : Path} (h : Readable fs path) :
    Seen.names (Seen.walk fs path) = (files fs path).map Prod.fst := by
  rw [Seen.names, Seen.walk, List.filterMap_map, files, List.map_filterMap]
  exact List.filterMap_congr fun met hm => (h.entries met hm).map_fst_file?.symm

/-! ## Rebuilds that succeed -/

/-- An entry can be added if it can be read and, where it is a template file, has a new name and
compiles. -/
theorem exists_addEntry {fs : FileSystem} {met : Path × Entry} {templates : Table String Node}
    (hr : IsReadable fs met) (hf : ∀ f ∈ file? fs met, f.1 ∉ Table.keys templates ∧
      ∃ root, Template.compile functions f.2 f.1 = .ok root) :
    ∃ templates', addEntry functions fs templates met = .ok templates' ∧
      ∀ k ∈ Table.keys templates', k ∈ Table.keys templates ∨ templateName? met = some k := by
  unfold addEntry
  by_cases hd : met.2.isDirectory = true
  · rw [if_pos hd, hr.listed hd]
    exact ⟨templates, rfl, fun k hk => .inl hk⟩
  · rw [if_neg hd]
    cases hn : templateName? met with
    | none => exact ⟨templates, rfl, fun k hk => .inl hk⟩
    | some name =>
      obtain ⟨data, hdata⟩ := hr.read name hn
      obtain ⟨hnew, root, hc⟩ := hf (name, data) (file?_eq_some_iff.2 ⟨hn, hdata⟩)
      have h1 : Table.has name templates = false := by
        rw [Bool.eq_false_iff]
        exact fun h => hnew (Table.has_iff_mem_keys.1 h)
      refine ⟨Table.insert name root templates, ?_, fun k hk => ?_⟩
      · simp only [addTemplate, compileTemplate, h1, hdata, hc]
        rfl
      · rcases Table.mem_keys_of_mem_insert hk with rfl | hk
        · exact .inr rfl
        · exact .inl hk

/-- The entries that follow can be added too if their names are new and distinct. -/
theorem exists_addEntries {fs : FileSystem} {mets : List (Path × Entry)} :
    ∀ {templates : Table String Node}, (∀ met ∈ mets, IsReadable fs met) →
      ((mets.filterMap (file? fs)).map Prod.fst).Nodup →
      (∀ f ∈ mets.filterMap (file? fs), f.1 ∉ Table.keys templates ∧
        ∃ root, Template.compile functions f.2 f.1 = .ok root) →
      ∃ templates', addEntries functions fs templates mets = .ok templates' := by
  induction mets with
  | nil => exact fun _ _ _ => ⟨_, rfl⟩
  | cons met mets ih =>
    intro templates hr hn hf
    obtain ⟨hr1, hr2⟩ := List.forall_mem_cons.1 hr
    have hsplit : (met :: mets).filterMap (file? fs) =
        (file? fs met).toList ++ mets.filterMap (file? fs) := by
      cases h : file? fs met <;> simp [h]
    rw [hsplit] at hf hn
    rw [List.map_append, List.nodup_append] at hn
    obtain ⟨hf1, hf2⟩ := List.forall_mem_append.1 hf
    obtain ⟨templates1, h1, hk⟩ := exists_addEntry hr1 fun f h => hf1 f (Option.mem_toList.2 h)
    have hnew : ∀ f ∈ mets.filterMap (file? fs), f.1 ∉ Table.keys templates1 := by
      intro f h hmem
      rcases hk f.1 hmem with h3 | h3
      · exact (hf2 f h).1 h3
      · rw [← hr1.map_fst_file?] at h3
        obtain ⟨g, hg, he⟩ := Option.map_eq_some_iff.1 h3
        exact hn.2.2 g.1 (List.mem_map_of_mem (Option.mem_toList.2 hg)) f.1
          (List.mem_map_of_mem h) he
    obtain ⟨templates2, h2⟩ := ih hr2 hn.2.1 fun f h => ⟨hnew f h, (hf2 f h).2⟩
    exact ⟨templates2, by rw [addEntries, h1]; exact h2⟩

/-- A rebuild that succeeded has compiled each of the files. -/
theorem Compiled.tree {fs : FileSystem} {path : Path} {templates : Table String Node}
    (h : Compiled functions (Seen.walk fs path) templates) {f : String × Bytes}
    (hf : f ∈ files fs path) : ∃ root, Template.compile functions f.2 f.1 = .ok root ∧
      Table.get? f.1 templates = some root := by
  obtain ⟨met, hmet, hn, hd⟩ := mem_files_iff.1 hf
  obtain ⟨data, root, hd', hr, hg⟩ := h.trees ⟨fs, met⟩ (List.mem_map_of_mem hmet) f.1 hn
  rw [hd] at hd'
  cases hd'
  exact ⟨root, hr, hg⟩

theorem compilable_of_compile {fs : FileSystem} {path : Path} {templates : Table String Node}
    (h : Readable fs path) (hc : compile functions mandatory fs path = .ok templates) :
    Compilable functions mandatory (files fs path) := by
  have h1 := complete_of_compile hc
  refine ⟨names_walk h ▸ h1.distinct, fun f hf => ?_, fun name hm => ?_⟩
  · obtain ⟨root, hr, -⟩ := h1.tree hf
    exact ⟨root, hr⟩
  · rw [← names_walk h]
    exact h1.names.mem_iff.1 (h1.mandatory name hm)

theorem exists_compile {fs : FileSystem} {path : Path} (h : Readable fs path)
    (hc : Compilable functions mandatory (files fs path)) :
    ∃ templates, compile functions mandatory fs path = .ok templates := by
  obtain ⟨templates, ht⟩ : ∃ templates, compileTheme functions fs path = .ok templates :=
    exists_addEntries h.entries hc.distinct fun f hf => ⟨List.not_mem_nil, hc.compile f hf⟩
  have h1 : Compiled functions (Seen.walk fs path) templates := Compiled.addEntries Compiled.nil ht
  have h2 : missing? mandatory templates = none := by
    refine missing?_eq_none_iff.2 fun name hm => h1.names.mem_iff.2 ?_
    rw [names_walk h]
    exact hc.mandatory name hm
  exact ⟨templates, by rw [compile, ht]; simp only [h2]⟩

/-! ## What is committed -/

/-- The table is sorted, and gives each of the files its tree and nothing else. -/
structure Holds (functions : Functions Context) (files : List (String × Bytes))
    (templates : Table String Node) : Prop where
  sorted : Table.Sorted templates
  get?_iff : ∀ name root, Table.get? name templates = some root ↔
    ∃ data, (name, data) ∈ files ∧ Template.compile functions data name = .ok root

theorem sorted_addEntries {fs : FileSystem} {mets : List (Path × Entry)} :
    ∀ {templates templates' : Table String Node}, Table.Sorted templates →
      addEntries functions fs templates mets = .ok templates' → Table.Sorted templates' := by
  induction mets with
  | nil =>
    intro templates templates' hs h
    cases h
    exact hs
  | cons met mets ih =>
    intro templates templates' hs h
    rw [addEntries] at h
    split at h
    next => cases h
    next templates1 h1 =>
      refine ih ?_ h
      obtain ⟨-, h2⟩ := addEntry_eq_ok h1
      cases hn : templateName? met with
      | none =>
        simp only [hn] at h2
        rwa [h2]
      | some name =>
        simp only [hn] at h2
        obtain ⟨-, data, root, -, -, rfl⟩ := addTemplate_eq_ok h2
        exact hs.insert name root

theorem holds_of_compile {fs : FileSystem} {path : Path} {templates : Table String Node}
    (h : Readable fs path) (hc : compile functions mandatory fs path = .ok templates) :
    Holds functions (files fs path) templates := by
  have h1 := complete_of_compile hc
  refine ⟨?_, fun name root => ⟨fun hg => ?_, ?_⟩⟩
  · have h2 : Table.Sorted ([] : Table String Node) := List.Pairwise.nil
    unfold compile at hc
    split at hc
    next => cases hc
    next templates' ht =>
      split at hc
      next => cases hc
      next =>
        cases hc
        exact sorted_addEntries h2 ht
  · have h2 : name ∈ (files fs path).map Prod.fst := by
      rw [← names_walk h]
      exact h1.names.mem_iff.1 (Table.mem_keys_of_get? hg)
    obtain ⟨⟨_, data⟩, hf, rfl⟩ := List.mem_map.1 h2
    obtain ⟨root', hr, hg'⟩ := h1.tree hf
    rw [hg] at hg'
    cases hg'
    exact ⟨data, hf, hr⟩
  · rintro ⟨data, hf, hr⟩
    obtain ⟨root', hr', hg⟩ := h1.tree hf
    rw [hr] at hr'
    cases hr'
    exact hg

theorem Holds.eq_of_perm {files files' : List (String × Bytes)}
    {templates templates' : Table String Node}
    (h : Holds functions files templates) (h' : Holds functions files' templates')
    (hp : files'.Perm files) : templates = templates' := by
  refine h.sorted.ext h'.sorted fun name => Option.ext fun root => ?_
  rw [h.get?_iff, h'.get?_iff]
  simp only [hp.mem_iff]

theorem Compilable.perm {files files' : List (String × Bytes)}
    (h : Compilable functions mandatory files) (hp : files'.Perm files) :
    Compilable functions mandatory files' where
  distinct := (hp.map Prod.fst).nodup_iff.2 h.distinct
  compile := fun f hf => h.compile f (hp.mem_iff.1 hf)
  mandatory := fun name hm => (hp.map Prod.fst).mem_iff.2 (h.mandatory name hm)

/-- Files that lie elsewhere, or are met in another order, give the same templates. -/
theorem compile_of_perm {fs fs' : FileSystem} {path path' : Path} {templates : Table String Node}
    (h : Readable fs path) (h' : Readable fs' path') (hp : (files fs' path').Perm (files fs path))
    (hc : compile functions mandatory fs path = .ok templates) :
    compile functions mandatory fs' path' = .ok templates := by
  obtain ⟨templates', hc'⟩ := exists_compile h' ((compilable_of_compile h hc).perm hp)
  rw [hc', (holds_of_compile h hc).eq_of_perm (holds_of_compile h' hc') hp]

end Generation

namespace Registry

open Generation

variable {Context : Type} {r : Registry Context} {fs : FileSystem} {theme : String}

theorem regenerate_of_compile_ok {templates : Table String Node}
    (hd : fs.isDirectory (r.options.themePath theme) = true)
    (hc : Generation.compile r.functions r.options.mandatory fs (r.options.themePath theme) =
      .ok templates) :
    (r.regenerate fs (.ok theme)).2 = .ok () ∧
      (r.regenerate fs (.ok theme)).1.committed.templates = templates := by
  rw [regenerate_of_directory hd, rebuild, hc]
  exact ⟨rfl, by rw [committed_watch]; rfl⟩

theorem regenerate_of_compile_error {e : RegistryError}
    (hd : fs.isDirectory (r.options.themePath theme) = true)
    (hc : Generation.compile r.functions r.options.mandatory fs (r.options.themePath theme) =
      .error e) :
    (r.regenerate fs (.ok theme)).2 = .error e := by
  rw [regenerate_of_directory hd, rebuild, hc]

/-- Where all can be read, the files of a theme compile just when their names are distinct, each of
them compiles, and the mandatory names are among theirs. So a rebuild from the same files in other
places fails as well, or both commit the same templates. -/
theorem regenerate_of_perm (r : Registry Context) {fs : FileSystem} {theme : String}
    (h : Readable fs (r.options.themePath theme)) :
    ((∃ templates, Generation.compile r.functions r.options.mandatory fs
        (r.options.themePath theme) = .ok templates) ↔
      Compilable r.functions r.options.mandatory (files fs (r.options.themePath theme))) ∧
    ∀ (r' : Registry Context) (fs' : FileSystem) (theme' : String),
      r'.functions = r.functions → r'.options.mandatory = r.options.mandatory →
      Readable fs' (r'.options.themePath theme') →
      (files fs' (r'.options.themePath theme')).Perm (files fs (r.options.themePath theme)) →
      (∃ e e', (r.regenerate fs (.ok theme)).2 = .error e ∧
        (r'.regenerate fs' (.ok theme')).2 = .error e') ∨
      ∃ templates, (r.regenerate fs (.ok theme)).2 = .ok () ∧
        (r.regenerate fs (.ok theme)).1.committed.templates = templates ∧
        (r'.regenerate fs' (.ok theme')).2 = .ok () ∧
        (r'.regenerate fs' (.ok theme')).1.committed.templates = templates := by
  refine ⟨⟨fun ⟨_, hc⟩ => compilable_of_compile h hc, exists_compile h⟩, ?_⟩
  intro r' fs' theme' hf hm h' hp
  cases hc : Generation.compile r.functions r.options.mandatory fs (r.options.themePath theme) with
  | ok templates =>
    have hc' := compile_of_perm h h' hp hc
    rw [← hf, ← hm] at hc'
    obtain ⟨h1, h2⟩ := regenerate_of_compile_ok h.present hc
    obtain ⟨h3, h4⟩ := regenerate_of_compile_ok h'.present hc'
    exact .inr ⟨templates, h1, h2, h3, h4⟩
  | error e =>
    cases hc' : Generation.compile r'.functions r'.options.mandatory fs'
        (r'.options.themePath theme') with
    | ok templates =>
      -- the files of the first theme would compile as well
      have h1 := compile_of_perm h' h hp.symm hc'
      rw [hf, hm, hc] at h1
      cases h1
    | error e' =>
      exact .inl ⟨e, e', regenerate_of_compile_error h.present hc,
        regenerate_of_compile_error h'.present hc'⟩

/-- Files with one theme, which has these entries. -/
def themeOf (entries : Table Bytes Entry) : FileSystem :=
  ⟨.directory [(Utf8.ofString "themes",
    .directory [(Utf8.ofString "casper", .directory entries)])], []⟩

def twoFiles : FileSystem :=
  themeOf [(Utf8.ofString "index.hbs", .file [0x78]),
    (Utf8.ofString "post.hbs", .file (Utf8.ofString "{{y}}"))]

/-- One of the files lies in a directory of its own. -/
def movedFiles : FileSystem :=
  themeOf [(Utf8.ofString "post.hbs", .file (Utf8.ofString "{{y}}")),
    (Utf8.ofString "sub", .directory [(Utf8.ofString "index.hbs", .file [0x78])])]

theorem readable_twoFiles : Readable twoFiles (Options.themePath {} "casper") :=
  .of_all (by cbv) (by cbv)

theorem readable_movedFiles : Readable movedFiles (Options.themePath {} "casper") :=
  .of_all (by cbv) (by cbv)

theorem files_twoFiles : files twoFiles (Options.themePath {} "casper") =
    [("index", [0x78]), ("post", Utf8.ofString "{{y}}")] := by cbv

theorem files_movedFiles : files movedFiles (Options.themePath {} "casper") =
    [("post", Utf8.ofString "{{y}}"), ("index", [0x78])] := by cbv

/-- The same files are met the other way around, and the same templates are served. -/
theorem regenerate_of_perm_moved :
    let r := new {} ([] : Functions Unit)
    let path := r.options.themePath "casper"
    Readable twoFiles path ∧ Readable movedFiles path ∧
      files twoFiles path = [("index", [0x78]), ("post", Utf8.ofString "{{y}}")] ∧
      files movedFiles path = [("post", Utf8.ofString "{{y}}"), ("index", [0x78])] ∧
      (files movedFiles path).Perm (files twoFiles path) ∧
      ∃ templates, Table.keys templates = ["index", "post"] ∧
        (r.regenerate twoFiles (.ok "casper")).1.committed.templates = templates ∧
        (r.regenerate movedFiles (.ok "casper")).2 = .ok () ∧
        (r.regenerate movedFiles (.ok "casper")).1.committed.templates = templates := by
  intro r path
  have h1 : (files movedFiles path).Perm (files twoFiles path) := by
    rw [show files twoFiles path = _ from files_twoFiles,
      show files movedFiles path = _ from files_movedFiles]
    exact List.Perm.swap _ _ _
  have h2 : ((new {} ([] : Functions Unit)).regenerate twoFiles (.ok "casper")).2 = .ok () := by cbv
  have h3 : ((new {} ([] : Functions Unit)).regenerate twoFiles (.ok "casper")).1.committed.names =
      ["index", "post"] := by cbv
  refine ⟨readable_twoFiles, readable_movedFiles, files_twoFiles, files_movedFiles, h1, ?_⟩
  rcases (regenerate_of_perm r readable_twoFiles).2 r movedFiles "casper" rfl rfl
    readable_movedFiles h1 with ⟨e, -, he, -⟩ | ⟨templates, -, ht, h⟩
  · rw [h2] at he
    cases he
  · exact ⟨templates, ht ▸ h3, ht, h⟩

end Registry

end ThemeTemplates
