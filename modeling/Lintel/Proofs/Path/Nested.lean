import Lintel.Proofs.Path.Settled

/-!
# Names below a settled path

Joining names to a settled path one by one, or all at once, appends them. What is left of the longer
path below the shorter one are the names that were joined.
-/
namespace Lintel.Path

theorem joinParts_append {names more : List Bytes} (hnames : names ≠ []) (hmore : more ≠ []) :
    joinParts (names ++ more) = joinParts names ++ separator :: joinParts more :=
  Text.intercalate_append separator hnames hmore

theorem pieces_joinParts {names : List Bytes} (h : ∀ b ∈ names, IsName b) (hne : names ≠ []) :
    Text.pieces (· == separator) (joinParts names) = names :=
  Text.pieces_intercalate (fun b hb => (h b hb).2.2.2) hne

theorem joinParts_concat (names : List Bytes) (b : Bytes) :
    ∃ front, joinParts (names ++ [b]) = front ++ b := by
  by_cases hne : names = []
  · exact ⟨[], by simp [hne, joinParts]⟩
  · exact ⟨joinParts names ++ [separator], by
      rw [joinParts_append hne (by simp)]
      simp [joinParts]⟩

theorem getLast?_joinParts {names : List Bytes} (h : ∀ b ∈ names, IsName b) (hne : names ≠ []) :
    ∃ c, (joinParts names).getLast? = some c ∧ c ≠ separator := by
  rcases List.eq_nil_or_concat names with hnil | ⟨before, b, hcut⟩
  · exact absurd hnil hne
  · rw [List.concat_eq_append] at hcut
    subst hcut
    have hb := h b (by simp)
    obtain ⟨front, hfront⟩ := joinParts_concat before b
    refine ⟨b.getLast hb.1, ?_, fun hsep => hb.2.2.2 (hsep ▸ List.getLast_mem hb.1)⟩
    rw [hfront, List.getLast?_append, List.getLast?_eq_some_getLast hb.1, Option.some_or]

theorem isAbsolute_joinParts {names : List Bytes} (h : ∀ b ∈ names, IsName b) :
    (ofNames false names).isAbsolute = false := by
  cases names with
  | nil => rfl
  | cons b names =>
    have hb := h b (List.mem_cons_self ..)
    obtain ⟨c, cs, hcons⟩ := List.exists_cons_of_ne_nil hb.1
    have hc : c ≠ separator := by
      rintro rfl
      exact hb.2.2.2 (hcons ▸ List.mem_cons_self ..)
    simp [ofNames, isAbsolute, joinParts, hcons, hc]

theorem join_ofNames {names more : List Bytes} (hnames : ∀ b ∈ names, IsName b)
    (hmore : ∀ b ∈ more, IsName b) (hne : more ≠ []) :
    (ofNames true names).join (ofNames false more) = ofNames true (names ++ more) := by
  rw [join, isAbsolute_joinParts hmore, if_neg Bool.false_ne_true]
  by_cases hnil : names = []
  · subst hnil
    rfl
  · obtain ⟨c, hlast, hsep⟩ := getLast?_joinParts hnames hnil
    have hlast' : (ofNames true names).bytes.getLast? = some c := by
      simp [ofNames, List.getLast?_cons, hlast]
    rw [hlast']
    simp [ofNames, hsep, joinParts_append hnil hne]

theorem foldl_join {names more : List Bytes} (hnames : ∀ b ∈ names, IsName b)
    (hmore : ∀ b ∈ more, IsName b) :
    more.foldl (fun p b => p.join ⟨b⟩) (ofNames true names) = ofNames true (names ++ more) := by
  induction more generalizing names with
  | nil => simp
  | cons b more ih =>
    rw [List.forall_mem_cons] at hmore
    have hone : ∀ c ∈ [b], IsName c := by simpa using hmore.1
    have hstep : (ofNames true names).join ⟨b⟩ = ofNames true (names ++ [b]) := by
      simpa [ofNames, joinParts] using join_ofNames hnames hone (by simp)
    have hnames' : ∀ c ∈ names ++ [b], IsName c := List.forall_mem_append.2 ⟨hnames, hone⟩
    rw [List.foldl_cons, hstep, ih hnames' hmore.2, List.append_assoc, List.singleton_append]

/-! ## Taking the shorter path off -/

theorem dropWhile_isSilent {names : List Bytes} (h : ∀ b ∈ names, IsName b) :
    names.dropWhile isSilent = names := by
  cases names with
  | nil => rfl
  | cons b names =>
    rw [List.dropWhile_cons_of_neg]
    simp [not_isSilent_of_isName (h b (List.mem_cons_self ..))]

theorem trimBoth_isSilent {names : List Bytes} (h : ∀ b ∈ names, IsName b) :
    Text.trimBoth isSilent names = names := by
  rw [Text.trimBoth, Text.dropEnd, dropWhile_isSilent h,
    dropWhile_isSilent (fun b hb => h b (List.mem_reverse.1 hb)), List.reverse_reverse]

theorem dropComponents_names {base names : List Bytes} (h : ∀ b ∈ base, IsName b) :
    dropComponents (base.map .name) (base ++ names) = some names := by
  induction base with
  | nil => rfl
  | cons b base ih =>
    rw [List.forall_mem_cons] at h
    have hloud : ¬ isSilent b = true := by simp [not_isSilent_of_isName h.1]
    rw [List.map_cons, dropComponents, List.cons_append, List.dropWhile_cons_of_neg hloud]
    simp [ofPart_of_isName h.1, ih h.2]

theorem stripPrefix_ofNames {base names : List Bytes} (hbase : ∀ b ∈ base, IsName b)
    (hnames : ∀ b ∈ names, IsName b) (hne : names ≠ []) :
    stripPrefix (ofNames true base) (ofNames true (base ++ names)) =
      some (ofNames false names) := by
  have hall : ∀ b ∈ base ++ names, IsName b := List.forall_mem_append.2 ⟨hbase, hnames⟩
  have hparts := parts_ofNames hall (by simp [hne])
  have hrest : ∀ ps : List Bytes, Text.trimBoth isSilent ps = names →
      stripPrefix.rest ps = ofNames false names := by
    intro ps hps
    rw [stripPrefix.rest, hps]
    rfl
  have hsilent : isSilent [] = true := rfl
  rw [stripPrefix, components_ofNames hbase]
  dsimp only
  rw [isAbsolute_ofNames, if_pos rfl, hparts]
  cases base with
  | nil =>
    have htrim : Text.trimBoth isSilent ([] :: names) = names := by
      rw [Text.trimBoth, List.dropWhile_cons_of_pos hsilent]
      exact trimBoth_isSilent hnames
    simp [dropComponents, hrest _ htrim]
  | cons b base =>
    have hskip : dropComponents ((b :: base).map .name) ([] :: (b :: base ++ names)) =
        dropComponents ((b :: base).map .name) (b :: base ++ names) := by
      rw [List.map_cons, dropComponents, dropComponents, List.dropWhile_cons_of_pos hsilent]
    rw [hskip, dropComponents_names hbase, Option.map_some, hrest _ (trimBoth_isSilent hnames)]

end Lintel.Path
