import Lintel.Proofs.Version.Terms

/-!
# What was read was spelled

The readers of comparators and of requirements take nothing that the grammar does not spell. The
two ends of a hyphen range are read whole and are therefore partial versions. Of a comparator in a
list the reader sees the operator, the numbers in front of the first wildcard and the suffix, and
the rest is not looked at: only where the parts behind the first wildcard are wildcards, and there
are at most three parts in all, does what was read tell what was written.
-/
namespace Lintel.Version

open Range (isOperatorChar)

theorem exists_mark (cs : List Char) : ∃ m : Mark, cs = m.text ++ Range.dropV cs := by
  unfold Range.dropV
  split
  · exact ⟨.small, rfl⟩
  · exact ⟨.capital, rfl⟩
  · exact ⟨.absent, rfl⟩

theorem Partial.stops_text (p : Partial) : Text.Stops isOperatorChar p.text := by
  intro c hc
  exact isOperatorChar_of_isVersionChar (p.isVersionChar_of_mem_text (List.mem_of_mem_head? hc))

theorem spelled_of_ofText? {o cs : List Char} {c : Comparator}
    (h : Comparator.ofText? (o ++ cs) = some c) (ho : ∀ d ∈ o, isOperatorChar d = true)
    (hstops : Text.Stops isOperatorChar cs) (hsolid : Text.Solid cs) :
    ∃ (op : Option Relation) (p : Partial), o = operatorText op ∧ cs = p.text ∧ p.numbers ≠ [] := by
  obtain ⟨v, hv, op, before, behind, p, hloose, hbefore, hbehind, hne⟩ :=
    Comparator.spelled_of_read? (Comparator.ofText?_eq_some_iff.1 h)
  rw [List.append_nil] at hv
  have hspace : ' ' ∉ o ++ cs := by
    rw [List.mem_append, not_or]
    exact ⟨fun hmem => absurd (ho _ hmem) (by decide),
      fun hmem => absurd (hsolid _ hmem) (by decide)⟩
  -- spaces could stand behind the operator and behind the version, and there are none
  have hnil : ∀ blanks : List Char, (∀ b ∈ blanks, b = ' ') → (∀ b ∈ blanks, b ∈ o ++ cs) →
      blanks = [] := by
    intro blanks hall hmem
    apply List.eq_nil_iff_forall_not_mem.2
    intro b hb
    exact hspace (hall b hb ▸ hmem b hb)
  have hbefore_nil := hnil before hbefore fun b hb => by
    rw [hv, hloose]
    simp [hb]
  have hbehind_nil := hnil behind hbehind fun b hb => by
    rw [hv, hloose]
    simp [hb]
  have heq : o ++ cs = operatorText op ++ p.text := by
    rw [hv, hloose, hbefore_nil, hbehind_nil]
    simp [operatorText]
  have hspan := congrArg (List.span isOperatorChar) heq
  rw [Text.span_append_stop ho hstops,
    Text.span_append_stop (fun _ hd => isOperatorChar_of_mem_operatorText hd) p.stops_text] at hspan
  exact ⟨op, p, congrArg Prod.fst hspan, congrArg Prod.snd hspan, hne⟩

theorem eq_nil_of_operatorText {op : Option Relation} {r : Relation} {o : List Char}
    (hr : r = .greaterEq ∨ r = .lessEq) (h : r.text ++ o = operatorText op) : o = [] := by
  cases op with
  | none => exact absurd (List.append_eq_nil_iff.1 h).1 r.text_ne_nil
  | some s => rcases hr with rfl | rfl <;> cases s <;> simp_all [operatorText, Relation.text]

theorem exists_operand_of_ofText? {r : Relation} {cs : List Char} {c : Comparator}
    (hr : r = .greaterEq ∨ r = .lessEq) (hsolid : Text.Solid cs)
    (h : Comparator.ofText? (r.text ++ Range.dropV cs) = some c) : ∃ o : Operand, cs = o.text := by
  obtain ⟨m, hm⟩ := exists_mark cs
  have hdrop : Text.Solid (Range.dropV cs) := by
    rw [hm] at hsolid
    exact (Text.solid_append.1 hsolid).2
  have hcut := List.takeWhile_append_dropWhile (p := isOperatorChar) (l := Range.dropV cs)
  rw [← hcut, ← List.append_assoc] at h
  obtain ⟨op, p, hop, hp, -⟩ := spelled_of_ofText? h
    (fun d hd => (List.mem_append.1 hd).elim (r.isOperatorChar_of_mem_text d)
      (List.all_eq_true.1 List.all_takeWhile d))
    (Text.stops_dropWhile _) fun d hd => hdrop d ((List.dropWhile_sublist _).subset hd)
  have hnil := eq_nil_of_operatorText hr hop
  rw [hnil, List.nil_append] at hcut
  exact ⟨⟨m, p⟩, hm.trans (by rw [Operand.text, ← hp, hcut])⟩

section Comparators

def versionOf (f : List Char) : List Char := Range.dropV (f.dropWhile isOperatorChar)

def dottedParts (f : List Char) : List (List Char) :=
  Text.pieces (· == '.') ((versionOf f).takeWhile fun c => c != '-' && c != '+')

/-- At most three parts, and nothing but wildcards from the first wildcard on. -/
structure Tidy (f : List Char) : Prop where
  three_parts : (dottedParts f).length ≤ 3
  only_wildcards : ∀ q ∈ (dottedParts f).dropWhile fun q => !decide (IsWildPart q), IsWildPart q

instance (f : List Char) : Decidable (Tidy f) :=
  decidable_of_iff ((dottedParts f).length ≤ 3 ∧
    ∀ q ∈ (dottedParts f).dropWhile fun q => !decide (IsWildPart q), IsWildPart q)
    ⟨fun h => ⟨h.1, h.2⟩, fun h => ⟨h.1, h.2⟩⟩

variable {f : List Char}

theorem exists_wildcards {rest : List (List Char)} (h : ∀ q ∈ rest, IsWildPart q) :
    ∃ ws : List Char, rest = ws.map (fun c => [c]) ∧ ∀ c ∈ ws, Comparator.isWildcard c = true := by
  induction rest with
  | nil => exact ⟨[], rfl, by simp⟩
  | cons q rest ih =>
    rw [List.forall_mem_cons] at h
    obtain ⟨c, hc, rfl⟩ := isWildPart_iff.1 h.1
    obtain ⟨ws, rfl, hws⟩ := ih h.2
    exact ⟨c :: ws, rfl, List.forall_mem_cons.2 ⟨hc, hws⟩⟩

theorem splitVersion?_eq_some {version suffix : List Char} {numbers : List (List Char)}
    (h : Range.splitVersion? version = some (numbers, suffix)) :
    Range.leadingNumbers?
        (Text.pieces (· == '.') (version.takeWhile fun c => c != '-' && c != '+')) = some numbers ∧
      suffix = version.dropWhile (fun c => c != '-' && c != '+') ∧
      (suffix ≠ [] → numbers.length = 3) := by
  simp only [Range.splitVersion?, List.span_eq_takeWhile_dropWhile, Option.bind_eq_bind,
    Option.bind_eq_some_iff] at h
  obtain ⟨ns, hns, h⟩ := h
  split at h
  · cases h
  · next hguard =>
    cases h
    refine ⟨hns, rfl, ?_⟩
    intro hne
    by_contra hlen
    rcases Nat.lt_or_gt_of_ne hlen with hlt | hgt
    · exact hguard (.inr ⟨hlt, hne⟩)
    · exact hguard (.inl hgt)

theorem exists_partial_of_splitVersion? {suffix : List Char} {numbers : List (List Char)}
    (h : Range.splitVersion? (versionOf f) = some (numbers, suffix)) (htidy : Tidy f)
    (hchars : ∀ c ∈ suffix, isSuffixChar c = true) : ∃ p : Partial, versionOf f = p.text := by
  obtain ⟨hlead, hsuffix, hfull⟩ := splitVersion?_eq_some h
  obtain ⟨rest, hparts, hnumeral, hstops⟩ := leadingNumbers?_eq_some_iff.1 hlead
  obtain ⟨hthree, hwild⟩ := htidy
  have hpieces : dottedParts f = numbers ++ rest := hparts
  have hrest : ∀ q ∈ rest, IsWildPart q := by
    rw [hpieces, Text.dropWhile_append_stop ?_ hstops] at hwild
    · exact hwild
    · exact fun q hq => by simpa using not_isWildPart_of_numeral (hnumeral q hq)
  obtain ⟨ws, rfl, hws⟩ := exists_wildcards hrest
  have hlen : 0 < (dottedParts f).length := List.length_pos_iff.2 (Text.pieces_ne_nil _ _)
  rw [hpieces, List.length_append, List.length_map] at hthree hlen
  have hannounced : ∀ c ∈ suffix.head?, announcesSuffix c = true := by
    intro c hc
    rw [hsuffix] at hc
    have hstop := Text.stops_dropWhile _ c hc
    simp only [Bool.and_eq_false_iff, bne_eq_false_iff_eq] at hstop
    rcases hstop with rfl | rfl <;> decide
  refine ⟨⟨numbers, ws, suffix, hnumeral, hws, hlen, hthree, hfull, hannounced, hchars⟩, ?_⟩
  show versionOf f = ['.'].intercalate (numbers ++ ws.map fun c => [c]) ++ suffix
  rw [← hpieces, dottedParts, Text.intercalate_pieces, hsuffix, List.takeWhile_append_dropWhile]

theorem mem_of_mem_versionOf {c : Char} (hc : c ∈ versionOf f) : c ∈ f := by
  obtain ⟨m, hm⟩ := exists_mark (f.dropWhile isOperatorChar)
  apply (List.dropWhile_sublist isOperatorChar).subset
  rw [hm]
  exact List.mem_append_right _ hc

theorem exists_term {op : Option Relation} {p : Partial}
    (hop : f.takeWhile isOperatorChar = operatorText op) (hp : versionOf f = p.text) :
    ∃ t : Term, f = t.text := by
  obtain ⟨m, hm⟩ := exists_mark (f.dropWhile isOperatorChar)
  refine ⟨⟨op, ⟨m, p⟩⟩, ?_⟩
  rw [Term.text, Operand.text, ← hop, ← hp, versionOf, ← hm, List.takeWhile_append_dropWhile]

theorem exists_operator_of_mem {o : List Char} (h : String.ofList o ∈ Range.wildcardOperators) :
    ∃ op, o = operatorText op := by
  have hchars : ∀ s : String, String.ofList o = s → o = s.toList := by
    rintro s rfl
    rw [String.toList_ofList]
  simp only [Range.wildcardOperators, List.mem_cons, List.not_mem_nil, or_false] at h
  rcases h with h | h | h | h | h | h
  · exact ⟨none, hchars _ h⟩
  · exact ⟨some .exact, hchars _ h⟩
  · exact ⟨some .greaterEq, hchars _ h⟩
  · exact ⟨some .lessEq, hchars _ h⟩
  · exact ⟨some .tilde, hchars _ h⟩
  · exact ⟨some .caret, hchars _ h⟩

theorem suffix_eq_of_text {p : Partial} {numbers : List (List Char)} {suffix : List Char}
    (hnumeral : ∀ q ∈ numbers, Numeral q)
    (hsuffix : Text.Stops (fun c => c != '-' && c != '+') suffix)
    (h : ['.'].intercalate numbers ++ suffix = p.text) : suffix = p.suffix := by
  have hcore : ∀ c ∈ ['.'].intercalate numbers, (c != '-' && c != '+') = true := by
    intro c hc
    rcases eq_dot_or_isAsciiDigit hnumeral hc with hdot | hdigit
    · rw [hdot]
      decide
    · by_contra hsign
      simp only [Bool.not_eq_true, Bool.and_eq_false_iff, bne_eq_false_iff_eq] at hsign
      rcases hsign with rfl | rfl <;> exact absurd hdigit (by decide)
  have hspan := p.span_text
  rw [← h, Text.span_append_stop hcore hsuffix] at hspan
  exact congrArg Prod.snd hspan

theorem spelled_of_item {o suffix : List Char} {numbers : List (List Char)} {c : Comparator}
    (h : Comparator.ofText? (o ++ (['.'].intercalate numbers ++ suffix)) = some c)
    (ho : ∀ d ∈ o, isOperatorChar d = true) (hne : numbers ≠ [])
    (hnumeral : ∀ q ∈ numbers, Numeral q) (hsolid : Text.Solid suffix)
    (hsuffix : Text.Stops (fun c => c != '-' && c != '+') suffix) :
    (∃ op, o = operatorText op) ∧ ∀ d ∈ suffix, isSuffixChar d = true := by
  obtain ⟨ds, rest, rfl⟩ := List.exists_cons_of_ne_nil hne
  obtain ⟨tail, htail⟩ := Text.intercalate_cons_eq_append '.' ds rest
  have hdigits := hnumeral ds (List.mem_cons_self ..)
  have hstops : Text.Stops isOperatorChar (['.'].intercalate (ds :: rest) ++ suffix) := by
    obtain ⟨d, ds, rfl⟩ := List.exists_cons_of_ne_nil hdigits.1
    rw [htail]
    exact Text.stops_cons.2 (isOperatorChar_of_isVersionChar
      (isVersionChar_of_isAsciiDigit (hdigits.2 d (List.mem_cons_self ..))))
  have hcore : Text.Solid (['.'].intercalate (ds :: rest)) := by
    intro d hd
    exact isBlank_of_isVersionChar (isVersionChar_of_mem_dotted hnumeral hd)
  obtain ⟨op, p, hop, hp, -⟩ :=
    spelled_of_ofText? h ho hstops (Text.solid_append.2 ⟨hcore, hsolid⟩)
  refine ⟨⟨op, hop⟩, ?_⟩
  rw [suffix_eq_of_text hnumeral hsuffix hp]
  exact p.suffix_chars

def operatorOf (f : List Char) : List Char :=
  if f.takeWhile isOperatorChar = [] then ['='] else f.takeWhile isOperatorChar

theorem operatorOf_ne_nil : operatorOf f ≠ [] := by
  rw [operatorOf]
  split
  · decide
  · next hne => exact hne

theorem isOperatorChar_of_mem_operatorOf : ∀ c ∈ operatorOf f, isOperatorChar c = true := by
  rw [operatorOf]
  split
  · simp [isOperatorChar]
  · exact List.all_eq_true.1 List.all_takeWhile

theorem comparator?_cases {x : Option (List Char)} (h : Range.comparator? f = some x) :
    ∃ numbers suffix, Range.splitVersion? (versionOf f) = some (numbers, suffix) ∧
      (numbers = [] ∧ x = none ∧
          String.ofList (f.takeWhile isOperatorChar) ∈ Range.wildcardOperators ∨
        numbers ≠ [] ∧ x = some (operatorOf f ++ (['.'].intercalate numbers ++ suffix))) := by
  simp only [Range.comparator?, List.span_eq_takeWhile_dropWhile, Option.bind_eq_bind,
    Option.bind_eq_some_iff, Prod.exists] at h
  obtain ⟨numbers, suffix, hsplit, h⟩ := h
  obtain ⟨-, -, hfull⟩ := splitVersion?_eq_some hsplit
  refine ⟨numbers, suffix, hsplit, ?_⟩
  by_cases hnil : numbers = []
  · rw [if_pos hnil] at h
    split at h
    · next hop =>
      cases h
      exact .inl ⟨hnil, rfl, hop⟩
    · cases h
  · rw [if_neg hnil, ite_suffix hfull, List.append_assoc] at h
    cases h
    exact .inr ⟨hnil, rfl⟩

theorem exists_operator_of_operatorOf {op : Option Relation} (h : operatorOf f = operatorText op) :
    ∃ op, f.takeWhile isOperatorChar = operatorText op := by
  rw [operatorOf] at h
  split at h
  · next hnil => exact ⟨none, hnil⟩
  · exact ⟨op, h⟩

theorem exists_term_of_comparator? {x : Option (List Char)} (h : Range.comparator? f = some x)
    (htidy : Tidy f) (hsolid : Text.Solid f)
    (hread : ∀ item, x = some item → ∃ c, Comparator.ofText? item = some c) :
    ∃ t : Term, f = t.text := by
  obtain ⟨numbers, suffix, hsplit, h⟩ := comparator?_cases h
  obtain ⟨hlead, hsuffix, hfull⟩ := splitVersion?_eq_some hsplit
  rcases h with ⟨hnil, -, hop⟩ | ⟨hne, hitem⟩
  · obtain ⟨op, hop⟩ := exists_operator_of_mem hop
    have hplain : suffix = [] := by
      by_contra hne
      have hlen := hfull hne
      simp [hnil] at hlen
    obtain ⟨p, hp⟩ := exists_partial_of_splitVersion? hsplit htidy (by simp [hplain])
    exact exists_term hop hp
  · obtain ⟨c, hc⟩ := hread _ hitem
    obtain ⟨-, -, hnumeral, -⟩ := leadingNumbers?_eq_some_iff.1 hlead
    have hsub : Text.Solid suffix := by
      rw [hsuffix]
      exact fun d hd => hsolid d (mem_of_mem_versionOf ((List.dropWhile_sublist _).subset hd))
    have hstops : Text.Stops (fun c => c != '-' && c != '+') suffix := by
      rw [hsuffix]
      exact Text.stops_dropWhile _
    obtain ⟨⟨op, hop⟩, hchars⟩ :=
      spelled_of_item hc isOperatorChar_of_mem_operatorOf hne hnumeral hsub hstops
    obtain ⟨op, hop⟩ := exists_operator_of_operatorOf hop
    obtain ⟨p, hp⟩ := exists_partial_of_splitVersion? hsplit htidy hchars
    exact exists_term hop hp

theorem item_of_comparator? {item : List Char} (h : Range.comparator? f = some (some item))
    (hcomma : ',' ∉ f) : Requirement.Item item := by
  obtain ⟨numbers, suffix, hsplit, h⟩ := comparator?_cases h
  obtain ⟨hlead, hsuffix, -⟩ := splitVersion?_eq_some hsplit
  obtain ⟨-, -, hnumeral, -⟩ := leadingNumbers?_eq_some_iff.1 hlead
  rcases h with ⟨-, hnone, -⟩ | ⟨-, hitem⟩
  · cases hnone
  · cases hitem
    apply Requirement.item_append operatorOf_ne_nil isOperatorChar_of_mem_operatorOf
    rw [List.mem_append, not_or]
    constructor
    · intro hmem
      exact ne_comma_of_isVersionChar (isVersionChar_of_mem_dotted hnumeral hmem) rfl
    · rw [hsuffix]
      exact fun hmem =>
        hcomma (mem_of_mem_versionOf ((List.dropWhile_sublist _).subset hmem))

end Comparators

end Lintel.Version
