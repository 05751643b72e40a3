import Lintel.Proofs.Ignore.Appended
import Lintel.Proofs.Ignore.Seen

/-!
# Other spellings of the working directory

Loading looks at the tree only through the places that paths name, and the rules are asked through
the components of the working directory. So the rules are the same for two spellings of one
directory, and so is what is ignored, unless the spelling climbs: an anchored path has no `..` in
it, so that it never starts with the components of a directory that has one, and nothing is ignored
there.
-/
namespace Lintel

namespace Path

variable {base base' w : Path}

theorem anchor_congr_base (hbase : base.isAbsolute = true) (hbase' : base'.isAbsolute = true)
    (h : settle base.components = settle base'.components) (p : Path) :
    base.anchor p = base'.anchor p := by
  refine anchor_congr hbase hbase' ?_
  rw [settle_components, settle_components, settleParts_eq_foldl, settleParts_eq_foldl] at h
  rw [stack, stack, h]

theorem anchor_of_isAbsolute (hw : w.isAbsolute = true) : base.anchor w = w.normalize := by
  rw [anchor, join, if_pos hw]

theorem components_normalize (hw : w.isAbsolute = true) :
    w.normalize.components = .root :: (settle w.components).map .name := by
  rw [normalize, hw, components_ofNames fun b hb => isName_of_mem_settle hb]

theorem up_notMem_of_settled {p : Path} (h : p.Settled) : .up ∉ p.components := by
  obtain ⟨names, hnames, rfl⟩ := h
  rw [components_ofNames hnames]
  simp

theorem body_of_up_notMem {ps : List Bytes} (h : .up ∉ body ps) :
    body ps = (ps.filter (! isSilent ·)).map .name := by
  refine List.map_congr_left fun b hb => if_neg ?_
  rintro rfl
  exact h (List.mem_map.2 ⟨_, hb, rfl⟩)

theorem same_normalize (hw : w.isAbsolute = true) (h : .up ∉ w.components) :
    w.Same w.normalize := by
  have hcomponents := components_of_isAbsolute hw
  rw [hcomponents, List.mem_cons, not_or] at h
  rw [body_of_up_notMem h.2] at hcomponents
  rw [Same, components_normalize hw, hcomponents, settle_root_names]

end Path

namespace Tree

variable (t : Tree) {p q w d : Path}

theorem walk_stem {links : Nat} {s : Nat × Location} (h : t.walk links [] p.parts = .ok s) :
    t.walk links [] p.stem = .ok s := by
  rcases Path.stem_cases p with hall | hlost
  · rw [hall, h]
  · rw [hlost] at h
    obtain ⟨r, hr, hstep⟩ := t.walk_append_eq_ok_iff.1 h
    rw [hr, t.walk_silent rfl hstep]

theorem locate_join {s : Nat × Location} (hp : p.isAbsolute = true) (hd : d.isAbsolute = false)
    (h : t.walk linkLimit [] p.parts = .ok s) :
    t.locate (p.join d) = (t.walk s.1 s.2 d.parts).map (·.2) := by
  rw [t.locate_of_isAbsolute (Path.isAbsolute_join hp d), Path.parts_join p hd, walk_append,
    t.walk_stem h]
  rfl

theorem locate_join_normalize {l : Location} (hw : w.isAbsolute = true)
    (hclimb : ¬ t.ClimbsOverLink w.parts) (hd : d.isAbsolute = false) (h : t.locate w = .ok l) :
    t.locate (w.join d) = t.locate (w.normalize.join d) := by
  rw [t.locate_of_isAbsolute hw] at h
  obtain ⟨s, hwalk, -⟩ := map_eq_ok_iff.1 h
  rw [t.locate_join hw hd hwalk,
    t.locate_join (Path.isAbsolute_normalize hw) hd (t.walk_normalize hw hclimb hwalk)]

variable {t}

theorem object_congr (h : t.locate p = t.locate q) : t.object p = t.object q := by
  rw [object, object, h]

theorem isFile_congr (h : t.locate p = t.locate q) : t.isFile p = t.isFile q := by
  rw [isFile, isFile, object_congr h]

theorem readText_congr (h : t.locate p = t.locate q) : t.readText p = t.readText q := by
  rw [readText, readText, read, read, object_congr h]

theorem exists_locate_of_isDirectory (h : t.isDirectory p = true) : ∃ l, t.locate p = .ok l := by
  cases hlocate : t.locate p with
  | error f => simp [isDirectory, object, hlocate, bind, Except.bind] at h
  | ok l => exact ⟨l, rfl⟩

end Tree

namespace Ignore

/-! ## The rules of a chosen file -/

theorem toOption_readRules (p q : Path) (ls : List (List Char)) :
    (readRules p ls).toOption = (readRules q ls).toOption := by
  induction ls with
  | nil => rfl
  | cons line ls ih =>
    rw [readRules, readRules]
    cases Line.read? line with
    | none => exact ih
    | some l =>
      dsimp only
      cases l.rule with
      | error cause => rfl
      | ok r =>
        dsimp only
        rw [toOption_map, toOption_map, ih]

def rulesOf (t : Tree) : Option Path → Except Fault (List Rule)
  | none => .ok []
  | some p =>
      match t.readText p with
      | .error cause => .error (.ignorePathUnreadable p cause)
      | .ok text => readRules p (Text.lines text)

theorem toOption_rulesOf {t : Tree} {p q : Path} (h : t.readText p = t.readText q) :
    (rulesOf t (some p)).toOption = (rulesOf t (some q)).toOption := by
  rw [rulesOf, rulesOf, h]
  cases t.readText q with
  | error cause => rfl
  | ok text => exact toOption_readRules p q (Text.lines text)

namespace Filter

variable {t : Tree} {dir w : Path} {named : Option Path} {f g : Filter}

theorem load_eq (t : Tree) (dir : Path) (named : Option Path) :
    load t dir named =
      choosePath t dir named >>= fun file => (rulesOf t file).map (Filter.mk dir file) := by
  rw [load]
  rcases choosePath t dir named with e | (_ | p)
  · rfl
  · rfl
  · simp only [bind, Except.bind, rulesOf]
    cases t.readText p with
    | error cause => rfl
    | ok text =>
      dsimp only
      cases readRules p (Text.lines text) <;> rfl

theorem map_rules_load (t : Tree) (dir : Path) (named : Option Path) :
    (load t dir named).map (·.rules) = choosePath t dir named >>= rulesOf t := by
  rw [load_eq]
  cases choosePath t dir named with
  | error e => rfl
  | ok file =>
    simp only [bind, Except.bind]
    cases rulesOf t file <;> rfl

theorem workingDir_of_load (h : load t dir named = .ok f) : f.workingDir = dir := by
  rw [load_eq] at h
  cases hfile : choosePath t dir named with
  | error e =>
    rw [hfile] at h
    cases h
  | ok file =>
    rw [hfile] at h
    obtain ⟨rules, -, rfl⟩ := map_eq_ok_iff.1 h
    rfl

theorem toOption_rules_normalize (hw : w.isAbsolute = true) (hdir : t.isDirectory w = true)
    (hclimb : ¬ t.ClimbsOverLink w.parts) (named : Option Path) :
    (load t w named).toOption.map (·.rules) =
      (load t w.normalize named).toOption.map (·.rules) := by
  rw [← toOption_map, ← toOption_map, map_rules_load, map_rules_load]
  -- a named file is anchored without a look at the tree, the default one is joined to the spelling
  cases named with
  | some p =>
    have hanchor : w.anchor p = w.normalize.anchor p := by
      refine Path.anchor_congr_base hw (Path.isAbsolute_normalize hw) ?_ p
      rw [Path.components_normalize hw, Path.settle_root_names]
    rw [choosePath, choosePath, hanchor]
  | none =>
    obtain ⟨l, hl⟩ := Tree.exists_locate_of_isDirectory hdir
    have hplace := t.locate_join_normalize hw hclimb (d := Path.ofString defaultName) rfl hl
    simp only [choosePath, Tree.isFile_congr hplace]
    cases t.isFile (w.normalize.join (Path.ofString defaultName)) with
    | false => rfl
    | true => exact toOption_rulesOf (Tree.readText_congr hplace)

/-! ## Two filters with the same rules -/

theorem isIgnored_of_same (hf : f.workingDir.isAbsolute = true)
    (hg : g.workingDir.isAbsolute = true) (hsame : f.workingDir.Same g.workingDir)
    (hrules : f.rules = g.rules) (p : Path) : f.isIgnored p = g.isIgnored p := by
  have hanchor := Path.anchor_congr_base hf hg (congrArg Path.settle hsame) p
  have hbelow (names : List Bytes) : f.Below p names ↔ g.Below p names := by
    rw [Below, Below, hanchor, hsame]
  rw [Bool.eq_iff_iff, isIgnored_iff hf, isIgnored_iff hg, hrules]
  simp only [hbelow]

theorem isIgnored_of_climbs (hf : f.workingDir.isAbsolute = true)
    (hup : .up ∈ f.workingDir.components) (p : Path) : f.isIgnored p = false := by
  rw [← Bool.not_eq_true, isIgnored_iff hf]
  rintro ⟨names, -, hbelow, -⟩
  refine Path.up_notMem_of_settled (Path.settled_anchor hf p) ?_
  rw [hbelow]
  exact List.mem_append_left _ hup

/-- A directory and its anchored form fail together or supply the same rules. The same paths are
ignored then if the spelling does not climb. If it climbs, no path is. -/
theorem load_respelled (hw : w.isAbsolute = true) (hdir : t.isDirectory w = true)
    (hclimb : ¬ t.ClimbsOverLink w.parts) (named : Option Path) :
    let n := (⟨[Path.separator]⟩ : Path).anchor w
    ((∃ f, load t w named = .ok f) ↔ ∃ g, load t n named = .ok g) ∧
    ∀ f g, load t w named = .ok f → load t n named = .ok g → f.rules = g.rules ∧
      (.up ∉ w.components → ∀ p, f.isIgnored p = g.isIgnored p) ∧
      (.up ∈ w.components → ∀ p, f.isIgnored p = false) := by
  intro n
  have hn : n = w.normalize := Path.anchor_of_isAbsolute hw
  have hrules := toOption_rules_normalize hw hdir hclimb named
  rw [← hn] at hrules
  refine ⟨?_, fun f g hf hg => ?_⟩
  · have hboth := congrArg Option.isSome hrules
    rw [Option.isSome_map, Option.isSome_map, Bool.eq_iff_iff, Option.isSome_iff_exists,
      Option.isSome_iff_exists] at hboth
    simpa only [toOption_eq_some_iff] using hboth
  · have hsame : f.rules = g.rules := by
      rw [hf, hg] at hrules
      exact Option.some.inj hrules
    have hfdir := workingDir_of_load hf
    have hgdir := (workingDir_of_load hg).trans hn
    have hfabs : f.workingDir.isAbsolute = true := hfdir ▸ hw
    have hgabs : g.workingDir.isAbsolute = true := hgdir ▸ Path.isAbsolute_normalize hw
    refine ⟨hsame, fun hup => ?_, fun hup => ?_⟩
    · refine isIgnored_of_same hfabs hgabs ?_ hsame
      rw [hfdir, hgdir]
      exact Path.same_normalize hw hup
    · exact isIgnored_of_climbs hfabs (hfdir ▸ hup)

def nested : Tree :=
  let rules := Object.file (bytesOf "*.txt\n") false
  ⟨[([bytesOf defaultName], rules), ([bytesOf "sub"], .directory),
    ([bytesOf "sub", bytesOf defaultName], rules)]⟩

theorem load_respelled_nested :
    let root : Path := ⟨[Path.separator]⟩
    let dotted := Path.ofString "/./sub//"
    let climbing := Path.ofString "/sub/.."
    ∃ f g f' g', load nested dotted none = .ok f ∧ load nested (root.anchor dotted) none = .ok g ∧
      load nested climbing none = .ok f' ∧ load nested (root.anchor climbing) none = .ok g' ∧
      f.isIgnored (.ofString "a.txt") = true ∧ (∀ p, f.isIgnored p = g.isIgnored p) ∧
      f'.rules ≠ [] ∧ f'.rules = g'.rules ∧ ∀ p, f'.isIgnored p = false := by
  intro root dotted climbing
  have hnames : (dotted.isAbsolute = true ∧ nested.isDirectory dotted = true ∧
      .up ∉ dotted.components) ∧
    climbing.isAbsolute = true ∧ nested.isDirectory climbing = true ∧
      .up ∈ climbing.components := by decide +kernel
  have hlinkless : nested.Linkless := by decide +kernel
  have hloads : (load nested dotted none).toOption.any
        (·.isIgnored (.ofString "a.txt")) = true ∧
      (load nested climbing none).toOption.any (! ·.rules.isEmpty) = true := by
    decide +kernel
  obtain ⟨⟨habs, hdir, hflat⟩, habs', hdir', hup⟩ := hnames
  obtain ⟨f, hf, hignored⟩ := exists_ok_of_any hloads.1
  obtain ⟨f', hf', hrules⟩ := exists_ok_of_any hloads.2
  obtain ⟨hboth, hsame⟩ := load_respelled habs hdir (hlinkless.not_climbsOverLink _) none
  obtain ⟨hboth', hsame'⟩ := load_respelled habs' hdir' (hlinkless.not_climbsOverLink _) none
  obtain ⟨g, hg⟩ := hboth.1 ⟨f, hf⟩
  obtain ⟨g', hg'⟩ := hboth'.1 ⟨f', hf'⟩
  obtain ⟨-, hflatly, -⟩ := hsame f g hf hg
  obtain ⟨hequal, -, hclimbing⟩ := hsame' f' g' hf' hg'
  exact ⟨f, g, f', g', hf, hg, hf', hg', hignored, hflatly hflat, by simpa using hrules, hequal,
    hclimbing hup⟩

theorem respelled_differs :
    let root : Path := ⟨[Path.separator]⟩
    let climbing := Path.ofString "/sub/.."
    nested.Linkless ∧ climbing.isAbsolute = true ∧ nested.isDirectory climbing = true ∧
    ∃ f g, load nested climbing none = .ok f ∧ load nested (root.anchor climbing) none = .ok g ∧
      f.isIgnored (.ofString "/a.txt") = false ∧ g.isIgnored (.ofString "/a.txt") = true := by
  intro root climbing
  have hloads : (load nested climbing none).toOption.any
        (! ·.isIgnored (.ofString "/a.txt")) = true ∧
      (load nested (root.anchor climbing) none).toOption.any
        (·.isIgnored (.ofString "/a.txt")) = true := by
    decide +kernel
  obtain ⟨f, hf, hkept⟩ := exists_ok_of_any hloads.1
  obtain ⟨g, hg, hignored⟩ := exists_ok_of_any hloads.2
  exact ⟨by decide +kernel, by decide +kernel, by decide +kernel, f, g, hf, hg,
    by simpa using hkept, hignored⟩

end Filter

end Ignore

end Lintel
