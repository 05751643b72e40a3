import Mathlib.Data.List.TakeWhile
import Lintel.Ignore.Filter
import Lintel.Proofs.Outcome
import Lintel.Proofs.Text.Lines

/-!
# More lines in an ignore file

At every level of the search, from a path up to the top, the last rule that covers the place
decides. A rule that is appended can therefore only decide for itself: no place that was judged its
way is judged otherwise behind it. Lines without a rule, and how lines end, say nothing.
-/
namespace Lintel.Ignore

/-! ## One more rule -/

theorem verdict_append (rules : List Rule) (r : Rule) (path : Bytes) (isDirectory : Bool) :
    verdict (rules ++ [r]) path isDirectory =
      if r.covers path isDirectory then some (! r.negated) else verdict rules path isDirectory := by
  rw [verdict, List.reverse_append, List.reverse_singleton, List.singleton_append, List.find?_cons]
  cases r.covers path isDirectory <;> rfl

theorem inherited_append {rules : List Rule} {r : Rule} {names : List Bytes}
    (h : inherited rules names = (! r.negated)) :
    inherited (rules ++ [r]) names = (! r.negated) := by
  induction names with
  | nil => exact h
  | cons b outer ih =>
    rw [inherited] at h ⊢
    rw [verdict_append]
    cases hcovers : r.covers (Path.joinParts outer.reverse) true with
    | true => rfl
    | false =>
      cases hverdict : verdict rules (Path.joinParts outer.reverse) true with
      | some ignored =>
        rw [hverdict] at h
        exact h
      | none =>
        rw [hverdict] at h
        exact ih h

theorem ignores_append {rules : List Rule} {r : Rule} {names : List Bytes}
    (h : ignores rules names = (! r.negated)) : ignores (rules ++ [r]) names = (! r.negated) := by
  rw [ignores] at h ⊢
  rw [verdict_append]
  cases hcovers : r.covers (Path.joinParts names) false with
  | true => rfl
  | false =>
    cases hverdict : verdict rules (Path.joinParts names) false with
    | some ignored =>
      rw [hverdict] at h
      exact h
    | none =>
      rw [hverdict] at h
      exact inherited_append h

/-! ## The rules of lines -/

def IsValid (line : List Char) : Prop := ∀ l, Line.read? line = some l → ∃ r, l.rule = .ok r

instance (line : List Char) : Decidable (IsValid line) :=
  decidable_of_iff ((Line.read? line).all (·.rule.toOption.isSome) = true) <| by
    cases hread : Line.read? line with
    | none => simp [IsValid, hread]
    | some l => cases hrule : l.rule <;> simp [IsValid, hread, hrule, Except.toOption]

def Holds (line : List Char) (r : Rule) : Prop := ∃ l, Line.read? line = some l ∧ l.rule = .ok r

def isLoud (line : List Char) : Bool := line.head? != some '#' && ! line.all Text.isBlank

def rule? (line : List Char) : Option Rule := (Line.read? line).bind (·.rule.toOption)

theorem Holds.isValid {line : List Char} {r : Rule} (h : Holds line r) : IsValid line := by
  obtain ⟨l, hread, hrule⟩ := h
  intro l' hread'
  rw [hread] at hread'
  cases hread'
  exact ⟨r, hrule⟩

theorem Holds.rule?_eq {line : List Char} {r : Rule} (h : Holds line r) : rule? line = some r := by
  obtain ⟨l, hread, hrule⟩ := h
  rw [rule?, hread, Option.bind_some, hrule]
  rfl

theorem exists_holds_of_isSome {line : List Char} (h : (rule? line).isSome = true) :
    ∃ r, Holds line r := by
  obtain ⟨r, hr⟩ := Option.isSome_iff_exists.1 h
  obtain ⟨l, hread, hrule⟩ := Option.bind_eq_some_iff.1 hr
  exact ⟨r, l, hread, toOption_eq_some_iff.1 hrule⟩

theorem trimLine_prefix (line : List Char) : trimLine line <+: line := by
  rw [trimLine]
  split
  · exact List.prefix_refl _
  · exact Text.prefix_dropEnd line

theorem head?_trimLine {line : List Char} (h : trimLine line ≠ []) :
    (trimLine line).head? = line.head? := by
  obtain ⟨rest, hrest⟩ := trimLine_prefix line
  have hhead : line.head? = (trimLine line).head?.or rest.head? := by
    rw [← List.head?_append, hrest]
  rw [hhead, List.head?_eq_some_head h, Option.some_or]

theorem trimLine_of_blank {line : List Char} (h : line.all Text.isBlank = true) :
    trimLine line = [] := by
  have hall : ∀ c ∈ line, Text.isBlank c = true := by simpa using h
  have hslash : Text.dropSuffix? ['\\', ' '] line = none := by
    rw [Text.dropSuffix?, Option.map_eq_none_iff, Text.dropPrefix?_eq_none_iff]
    intro hfront
    have hmem : '\\' ∈ line := List.mem_reverse.1 (hfront.mem (by simp))
    exact absurd (hall _ hmem) (by decide)
  rw [trimLine, hslash, if_neg (by simp), Text.trimEnd, Text.dropEnd, List.reverse_eq_nil_iff]
  exact List.dropWhile_eq_nil_iff.2 fun c hc => hall c (List.mem_reverse.1 hc)

theorem read?_of_not_isLoud {line : List Char} (h : isLoud line = false) :
    Line.read? line = none := by
  rw [Line.read?]
  split
  · rfl
  · rename_i hcomment
    have hblank : line.all Text.isBlank = true := by
      rw [isLoud] at h
      simpa [hcomment] using h
    dsimp only
    rw [trimLine_of_blank hblank, if_pos rfl]

theorem negated_of_read? {line : List Char} {l : Line} (h : Line.read? line = some l) :
    l.negated = (line.head? == some '!') := by
  rw [Line.read?] at h
  split at h
  · cases h
  · dsimp only at h
    split at h
    · cases h
    · rename_i hne
      rw [← head?_trimLine hne]
      generalize trimLine line = spelled at h
      split at h
      all_goals
        obtain rfl := Option.some.inj h
        dsimp only
        split <;> try rfl
        rename_i hbang _
        rw [eq_comm, beq_eq_false_iff_ne]
        intro hhead
        obtain ⟨rest, rfl⟩ := List.head?_eq_some_iff.1 hhead
        exact hbang rest rfl

theorem Holds.negated_eq {line : List Char} {r : Rule} (h : Holds line r) :
    r.negated = (line.head? == some '!') := by
  obtain ⟨l, hread, hrule⟩ := h
  obtain ⟨p, -, rfl⟩ := map_eq_ok_iff.1 hrule
  exact negated_of_read? hread

theorem readRules_of_valid (path : Path) {ls : List (List Char)}
    (h : ∀ line ∈ ls, IsValid line) : readRules path ls = .ok (ls.filterMap rule?) := by
  induction ls with
  | nil => rfl
  | cons line ls ih =>
    rw [List.forall_mem_cons] at h
    rw [readRules]
    cases hread : Line.read? line with
    | none =>
      have hnone : rule? line = none := by rw [rule?, hread, Option.bind_none]
      rw [List.filterMap_cons_none hnone]
      exact ih h.2
    | some l =>
      obtain ⟨r, hr⟩ := h.1 l hread
      have hsome : rule? line = some r := Holds.rule?_eq ⟨l, hread, hr⟩
      rw [List.filterMap_cons_some hsome]
      simp only [hr, ih h.2]
      rfl

theorem isValid_of_not_isLoud {line : List Char} (h : isLoud line = false) : IsValid line := by
  intro l hread
  rw [read?_of_not_isLoud h] at hread
  cases hread

theorem filterMap_rule?_filter (ls : List (List Char)) :
    (ls.filter isLoud).filterMap rule? = ls.filterMap rule? := by
  rw [List.filterMap_filter]
  refine congrArg (List.filterMap · ls) (funext fun line => ?_)
  cases hloud : isLoud line with
  | true => rfl
  | false => rw [rule?, read?_of_not_isLoud hloud, if_neg Bool.false_ne_true, Option.bind_none]

/-! ## Two ignore files -/

/-- The ignore file that is chosen for a directory, and its text. -/
structure Supplies (t : Tree) (dir : Path) (named : Option Path) (file : Path)
    (text : List Char) : Prop where
  chosen : Filter.choosePath t dir named = .ok (some file)
  readable : t.readText file = .ok text

theorem Supplies.load {t : Tree} {dir : Path} {named : Option Path} {file : Path}
    {text : List Char} {ls : List (List Char)} (h : Supplies t dir named file text)
    (hls : Text.Written ls text) (hvalid : ∀ line ∈ ls, IsValid line) :
    Filter.load t dir named = .ok ⟨dir, some file, ls.filterMap rule?⟩ := by
  rw [Filter.load, h.chosen]
  simp only [bind, Except.bind, h.readable, Text.lines_of_written hls,
    readRules_of_valid file hvalid]

theorem isIgnored_append {dir : Path} {file : Option Path} {rules : List Rule} {r : Rule} {p : Path}
    (h : (Filter.mk dir file rules).isIgnored p = (! r.negated)) :
    (Filter.mk dir file (rules ++ [r])).isIgnored p = (! r.negated) := by
  rw [Filter.isIgnored] at h ⊢
  dsimp only at h ⊢
  split at h
  · rename_i relative _
    cases hinside : relative.bytes != [] with
    | false =>
      rw [hinside, Bool.false_and] at h
      exact h
    | true =>
      rw [hinside, Bool.true_and] at h
      exact ignores_append h
  · exact h

/-- What a filter ignores under one more rule at the end of its file, and under other blank lines,
comments and line ends. A rule that is not negated takes no path out, and a negated one takes none
in. -/
theorem isIgnored_of_more_lines {t : Tree} {dir : Path} {named : Option Path} {file : Path}
    {text : List Char} {ls : List (List Char)} (h : Supplies t dir named file text)
    (hls : Text.Written ls text) (hvalid : ∀ line ∈ ls, IsValid line) :
    ∃ f, Filter.load t dir named = .ok f ∧ ∀ t' text' ls', Supplies t' dir named file text' →
      Text.Written ls' text' →
      (∀ line r, Holds line r → ls' = ls ++ [line] →
        ∃ f', Filter.load t' dir named = .ok f' ∧
          (line.head? ≠ some '!' → ∀ p, f.isIgnored p = true → f'.isIgnored p = true) ∧
          (line.head? = some '!' → ∀ p, f.isIgnored p = false → f'.isIgnored p = false)) ∧
      (ls'.filter isLoud = ls.filter isLoud →
        ∃ f', Filter.load t' dir named = .ok f' ∧ ∀ p, f'.isIgnored p = f.isIgnored p) := by
  refine ⟨_, h.load hls hvalid, fun t' text' ls' h' hls' => ⟨?_, ?_⟩⟩
  · rintro line r hholds rfl
    have hvalid' : ∀ l ∈ ls ++ [line], IsValid l :=
      List.forall_mem_append.2 ⟨hvalid, by simpa using hholds.isValid⟩
    have hrules : (ls ++ [line]).filterMap rule? = ls.filterMap rule? ++ [r] := by
      rw [List.filterMap_append, List.filterMap_cons_some hholds.rule?_eq, List.filterMap_nil]
    have hload := h'.load hls' hvalid'
    rw [hrules] at hload
    refine ⟨_, hload, fun hplain p hp => ?_, fun hbang p hp => ?_⟩
    · have hignores : (! r.negated) = true := by simp [hholds.negated_eq, hplain]
      rw [← hignores] at hp ⊢
      exact isIgnored_append hp
    · have hkeeps : (! r.negated) = false := by simp [hholds.negated_eq, hbang]
      rw [← hkeeps] at hp ⊢
      exact isIgnored_append hp
  · intro hsame
    have hvalid' : ∀ line ∈ ls', IsValid line := by
      intro line hline
      cases hloud : isLoud line with
      | true =>
        have hmem : line ∈ ls.filter isLoud := hsame ▸ List.mem_filter.2 ⟨hline, hloud⟩
        exact hvalid line (List.mem_filter.1 hmem).1
      | false => exact isValid_of_not_isLoud hloud
    refine ⟨_, h'.load hls' hvalid', fun p => ?_⟩
    rw [← filterMap_rule?_filter ls', hsame, filterMap_rule?_filter]

def ruled (text : String) : Tree := ⟨[([bytesOf "rules"], .file (bytesOf text) false)]⟩

theorem supplies_of_toOption {t : Tree} {dir : Path} {named : Option Path} {file : Path}
    {text : List Char}
    (h : (Filter.choosePath t dir named).toOption = some (some file) ∧
      (t.readText file).toOption = some text) : Supplies t dir named file text :=
  ⟨toOption_eq_some_iff.1 h.1, toOption_eq_some_iff.1 h.2⟩

theorem isIgnored_of_more_lines_sources :
    let load := fun text => Filter.load (ruled text) ⟨[Path.separator]⟩ (some (.ofString "rules"))
    ∃ f f₁ f₂ f₃, load "*.ts\n!keep.ts\n" = .ok f ∧
      load "*.ts\n!keep.ts\nbuild/" = .ok f₁ ∧ load "*.ts\n!keep.ts\r\n!a.ts\n" = .ok f₂ ∧
      load "# sources\r\n*.ts\r\n \t\n\n!keep.ts" = .ok f₃ ∧
      (∀ p, f.isIgnored p = true → f₁.isIgnored p = true) ∧
      (∀ p, f.isIgnored p = false → f₂.isIgnored p = false) ∧
      ∀ p, f₃.isIgnored p = f.isIgnored p := by
  intro load
  let supplied := fun text : String =>
    (Filter.choosePath (ruled text) ⟨[Path.separator]⟩ (some (.ofString "rules"))).toOption =
        some (some (.ofString "/rules")) ∧
      ((ruled text).readText (.ofString "/rules")).toOption = some text.toList
  have hone : supplied "*.ts\n!keep.ts\n" := by decide +kernel
  have hmany : supplied "*.ts\n!keep.ts\nbuild/" ∧ supplied "*.ts\n!keep.ts\r\n!a.ts\n" ∧
      supplied "# sources\r\n*.ts\r\n \t\n\n!keep.ts" := by decide +kernel
  obtain ⟨f, hload, hmore⟩ := isIgnored_of_more_lines (supplies_of_toOption hone)
    (Text.written_lines _) (by decide +kernel)
  have hplain : (rule? "build/".toList).isSome = true := by decide +kernel
  have hnegated : (rule? "!a.ts".toList).isSome = true := by decide +kernel
  obtain ⟨r, hr⟩ := exists_holds_of_isSome hplain
  obtain ⟨s, hs⟩ := exists_holds_of_isSome hnegated
  obtain ⟨f₁, hload₁, hin, -⟩ := (hmore _ _ _ (supplies_of_toOption hmany.1)
    (Text.written_lines _)).1 _ r hr (by decide +kernel)
  obtain ⟨f₂, hload₂, -, hout⟩ := (hmore _ _ _ (supplies_of_toOption hmany.2.1)
    (Text.written_lines _)).1 _ s hs (by decide +kernel)
  obtain ⟨f₃, hload₃, hsame⟩ := (hmore _ _ _ (supplies_of_toOption hmany.2.2)
    (Text.written_lines _)).2 (by decide +kernel)
  exact ⟨f, f₁, f₂, f₃, hload, hload₁, hload₂, hload₃, hin (by decide), hout (by decide), hsame⟩

end Lintel.Ignore
