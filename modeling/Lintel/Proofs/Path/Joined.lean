import Lintel.Proofs.Path.Nested

/-!
# Parts of joined paths

Joining appends parts, and taking a path off the front of one that continues it leaves what was
appended, silent parts at its front aside. Neither path has to be settled.
-/
namespace Lintel

namespace Path

/-- The parts of a path without the empty one behind a separator at its end. -/
def stem (p : Path) : List Bytes :=
  if p.parts.getLast? = some [] then p.parts.dropLast else p.parts

theorem stem_of_getLast? {p : Path} (h : p.parts.getLast? ≠ some []) : p.stem = p.parts :=
  if_neg h

theorem stem_of_parts {p : Path} {ps : List Bytes} (h : p.parts = ps ++ [[]]) : p.stem = ps := by
  rw [stem, h, List.getLast?_concat, if_pos rfl, List.dropLast_concat]

theorem stem_cases (p : Path) : p.stem = p.parts ∨ p.parts = p.stem ++ [[]] := by
  by_cases h : p.parts.getLast? = some []
  · obtain ⟨ps, hps⟩ := List.getLast?_eq_some_iff.1 h
    exact .inr (by rw [stem_of_parts hps, hps])
  · exact .inl (stem_of_getLast? h)

theorem getLast?_parts_ne {bs : Bytes} {b : UInt8} (hb : b ≠ separator) :
    (⟨bs ++ [b]⟩ : Path).parts.getLast? ≠ some [] := by
  induction bs with
  | nil => simp [parts, Text.pieces_of_no_sep, hb]
  | cons a bs ih =>
    obtain ⟨q, qs, hcut⟩ := List.exists_cons_of_ne_nil
      (Text.pieces_ne_nil (· == separator) (bs ++ [b]))
    rw [parts] at ih ⊢
    dsimp only at ih ⊢
    by_cases ha : a = separator
    · rw [List.cons_append, Text.pieces_cons_sep (by simp [ha]), hcut, List.getLast?_cons_cons,
        ← hcut]
      exact ih
    · rw [List.cons_append, Text.pieces_cons_of_not_sep (by simp [ha]), hcut]
      rw [hcut] at ih
      cases qs with
      | nil => simp
      | cons r rs => simpa using ih

theorem parts_join (p : Path) {q : Path} (hq : q.isAbsolute = false) :
    (p.join q).parts = p.stem ++ q.parts := by
  rw [join, if_neg (by simp [hq])]
  rcases List.eq_nil_or_concat p.bytes with hnil | ⟨bs, b, hcut⟩
  · obtain ⟨bytes⟩ := p
    subst hnil
    rfl
  · rw [List.concat_eq_append] at hcut
    obtain ⟨bytes⟩ := p
    obtain rfl : bytes = bs ++ [b] := hcut
    rw [List.getLast?_concat]
    dsimp only
    by_cases hb : b = separator
    · subst hb
      have hparts : (⟨bs ++ [separator]⟩ : Path).parts =
          Text.pieces (· == separator) bs ++ [[]] :=
        Text.pieces_append_sep (by simp) bs []
      rw [if_pos rfl, stem_of_parts hparts, parts, List.append_assoc]
      exact Text.pieces_append_sep (by simp) bs q.bytes
    · rw [if_neg hb, stem_of_getLast? (getLast?_parts_ne hb)]
      exact Text.pieces_append_sep (by simp) _ _

theorem isAbsolute_join_relative (p : Path) {q : Path} (hq : q.isAbsolute = false) :
    (p.join q).isAbsolute = p.isAbsolute := by
  obtain ⟨bytes⟩ := p
  rw [join, if_neg (by simp [hq])]
  cases bytes with
  | nil => exact hq
  | cons b bytes =>
    split
    · rename_i hlast
      simp at hlast
    · split <;> rfl

theorem stem_join (p : Path) {q : Path} (hq : q.isAbsolute = false) :
    (p.join q).stem = p.stem ++ q.stem := by
  have hparts := parts_join p hq
  have hne : q.parts ≠ [] := Text.pieces_ne_nil _ _
  have hlast : (p.join q).parts.getLast? = q.parts.getLast? := by
    rw [hparts, List.getLast?_append, List.getLast?_eq_some_getLast hne, Option.some_or]
  by_cases hempty : q.parts.getLast? = some []
  · obtain ⟨ps, hps⟩ := List.getLast?_eq_some_iff.1 hempty
    rw [stem_of_parts hps]
    exact stem_of_parts (by rw [hparts, hps, List.append_assoc])
  · rw [stem_of_getLast? hempty, stem_of_getLast? (hlast ▸ hempty), hparts]

/-! ## Joining names -/

theorem parts_name {b : Bytes} (h : IsName b) : (⟨b⟩ : Path).parts = [b] :=
  Text.pieces_of_no_sep fun a ha => by
    rw [beq_eq_false_iff_ne]
    rintro rfl
    exact h.2.2.2 ha

theorem stem_name {b : Bytes} (h : IsName b) : (⟨b⟩ : Path).stem = [b] := by
  rw [stem_of_getLast? (by simp [parts_name h, h.1]), parts_name h]

theorem isAbsolute_name {b : Bytes} (h : IsName b) : (⟨b⟩ : Path).isAbsolute = false := by
  obtain ⟨a, bs, rfl⟩ := List.exists_cons_of_ne_nil h.1
  have ha : a ≠ separator := fun heq => h.2.2.2 (by simp [heq])
  simp [isAbsolute, ha]

def extend (p : Path) (names : List Bytes) : Path := names.foldl (fun p name => p.join ⟨name⟩) p

theorem parts_extend (p : Path) {names : List Bytes} (h : ∀ b ∈ names, IsName b)
    (hne : names ≠ []) : (p.extend names).parts = p.stem ++ names := by
  induction names generalizing p with
  | nil => exact absurd rfl hne
  | cons b names ih =>
    rw [List.forall_mem_cons] at h
    have hq := isAbsolute_name h.1
    by_cases hnil : names = []
    · have hone : (p.join ⟨b⟩).parts = p.stem ++ [b] := by rw [parts_join p hq, parts_name h.1]
      rw [hnil, ← hone]
      rfl
    · have hrest := ih (p.join ⟨b⟩) h.2 hnil
      rw [stem_join p hq, stem_name h.1, List.append_assoc] at hrest
      exact hrest

theorem isAbsolute_extend (p : Path) {names : List Bytes} (h : ∀ b ∈ names, IsName b) :
    (p.extend names).isAbsolute = p.isAbsolute := by
  induction names generalizing p with
  | nil => rfl
  | cons b names ih =>
    rw [List.forall_mem_cons] at h
    rw [← isAbsolute_join_relative p (isAbsolute_name h.1)]
    exact ih (p.join ⟨b⟩) h.2

/-! ## Taking the front off -/

def body (ps : List Bytes) : List Component := (ps.filter (! isSilent ·)).map Component.ofPart

theorem body_cons_silent {b : Bytes} (h : isSilent b = true) (ps : List Bytes) :
    body (b :: ps) = body ps := by
  rw [body, List.filter_cons_of_neg (by simp [h]), body]

theorem body_cons_loud {b : Bytes} (h : isSilent b = false) (ps : List Bytes) :
    body (b :: ps) = Component.ofPart b :: body ps := by
  rw [body, List.filter_cons_of_pos (by simp [h]), List.map_cons, body]

theorem body_parts (p : Path) : body p.parts = body p.stem := by
  have hsilent : isSilent [] = true := rfl
  rw [stem]
  split
  · rename_i hlast
    obtain ⟨ps, hps⟩ := List.getLast?_eq_some_iff.1 hlast
    rw [hps, List.dropLast_concat]
    simp [body, hsilent]
  · rfl

theorem dropComponents_cons_silent {b : Bytes} (h : isSilent b = true) {c : Component}
    (cs : List Component) (ps : List Bytes) :
    dropComponents (c :: cs) (b :: ps) = dropComponents (c :: cs) ps := by
  rw [dropComponents, List.dropWhile_cons_of_pos h, dropComponents]

theorem dropComponents_body (ps more : List Bytes) :
    ∃ silent, (∀ b ∈ silent, isSilent b = true) ∧
      dropComponents (body ps) (ps ++ more) = some (silent ++ more) := by
  induction ps with
  | nil => exact ⟨[], by simp, rfl⟩
  | cons b ps ih =>
    obtain ⟨silent, hsilent, hdrop⟩ := ih
    cases hb : isSilent b with
    | true =>
      rw [body_cons_silent hb]
      cases hbody : body ps with
      | nil =>
        rw [hbody, dropComponents, Option.some.injEq] at hdrop
        exact ⟨b :: silent, List.forall_mem_cons.2 ⟨hb, hsilent⟩, by
          rw [dropComponents, List.cons_append, hdrop, List.cons_append]⟩
      | cons c cs =>
        rw [List.cons_append, dropComponents_cons_silent hb, ← hbody]
        exact ⟨silent, hsilent, hdrop⟩
    | false =>
      refine ⟨silent, hsilent, ?_⟩
      rw [body_cons_loud hb, dropComponents, List.cons_append, List.dropWhile_cons_of_neg (by simp [hb])]
      simpa using hdrop

theorem dropEnd_of_getLast? {ps : List Bytes} {b : Bytes} (h : ps.getLast? = some b)
    (hb : isSilent b = false) : Text.dropEnd isSilent ps = ps := by
  obtain ⟨front, rfl⟩ := List.getLast?_eq_some_iff.1 h
  simp [Text.dropEnd, hb]

theorem trimBoth_append {silent more : List Bytes} (hsilent : ∀ b ∈ silent, isSilent b = true)
    {b : Bytes} (h : more.getLast? = some b) (hb : isSilent b = false) :
    Text.trimBoth isSilent (silent ++ more) = more.dropWhile isSilent := by
  obtain ⟨front, rfl⟩ := List.getLast?_eq_some_iff.1 h
  rw [Text.trimBoth, List.dropWhile_append_of_pos hsilent, Text.dropWhile_append_cons hb,
    dropEnd_of_getLast? List.getLast?_concat hb]

theorem parts_joinParts {p : Path} {ps : List Bytes} (hps : ps <:+ p.parts) (hne : ps ≠ []) :
    (⟨joinParts ps⟩ : Path).parts = ps := by
  refine Text.pieces_intercalate (fun b hb hsep => ?_) hne
  simpa using Text.no_sep_of_mem_pieces (hps.mem hb) _ hsep

theorem exists_parts_cons {p : Path} (hne : p.bytes ≠ []) (habs : p.isAbsolute = false) :
    ∃ b ps, p.parts = b :: ps ∧ b ≠ [] := by
  obtain ⟨bytes⟩ := p
  obtain ⟨a, bytes, rfl⟩ := List.exists_cons_of_ne_nil hne
  have ha : a ≠ separator := by simpa [isAbsolute] using habs
  obtain ⟨q, qs, hcut⟩ := List.exists_cons_of_ne_nil
    (Text.pieces_ne_nil (· == separator) bytes)
  refine ⟨a :: q, qs, ?_, by simp⟩
  rw [parts, Text.pieces_cons_of_not_sep (by simp [ha]), hcut]
  rfl

theorem stem_cons {p : Path} {b : Bytes} {ps : List Bytes} (hparts : p.parts = b :: ps)
    (hb : b ≠ []) : ∃ tail, p.stem = b :: tail := by
  rw [stem]
  split
  · rename_i hlast
    rw [hparts] at hlast ⊢
    cases ps with
    | nil => exact absurd (by simpa using hlast) hb
    | cons c ps => exact ⟨_, List.dropLast_cons_cons⟩
  · exact ⟨ps, hparts⟩

/-! ## What is left below a path -/

theorem components_of_isAbsolute {p : Path} (h : p.isAbsolute = true) :
    p.components = .root :: body p.stem := by
  rw [components, if_pos h, ← body_parts]
  rfl

theorem components_of_dot {p : Path} (habs : p.isAbsolute = false) {tail : List Bytes}
    (hhead : p.parts.head? = some [dot]) (hstem : p.stem = [dot] :: tail) :
    p.components = .here :: body tail := by
  have hsilent : isSilent [dot] = true := rfl
  rw [components, if_neg (by simp [habs]), if_pos hhead, ← body_cons_silent hsilent tail, ← hstem,
    ← body_parts]
  rfl

theorem components_of_loud {p : Path} (habs : p.isAbsolute = false) {first : Bytes}
    {tail : List Bytes} (hhead : p.parts.head? = some first) (hstem : p.stem = first :: tail)
    (hloud : isSilent first = false) : p.components = Component.ofPart first :: body tail := by
  have hdot : ¬ p.parts.head? = some [dot] := by
    rw [hhead, Option.some.injEq]
    rintro rfl
    cases hloud
  rw [components, if_neg (by simp [habs]), if_neg hdot, ← body_cons_loud hloud tail, ← hstem,
    ← body_parts]
  rfl

theorem stripPrefix_empty {f : Path} (habs : f.isAbsolute = false) {b : Bytes}
    (hlast : f.parts.getLast? = some b) (hb : isSilent b = false) :
    stripPrefix ⟨[]⟩ f = some f := by
  have hfull : f.bytes ≠ [] := by
    intro hempty
    rw [parts, hempty] at hlast
    obtain rfl : [] = b := by simpa [Text.pieces] using hlast
    cases hb
  have hcomponents : (⟨[]⟩ : Path).components = [] := rfl
  obtain ⟨q, qs, hcut, hq⟩ := exists_parts_cons hfull habs
  have htrim : Text.dropEnd isSilent qs = qs := by
    cases qs with
    | nil => rfl
    | cons r rs =>
      rw [hcut, List.getLast?_cons_cons] at hlast
      exact dropEnd_of_getLast? hlast hb
  rw [stripPrefix, hcomponents]
  dsimp only
  rw [habs, if_neg Bool.false_ne_true, hcut]
  dsimp only
  rw [if_neg hq, htrim, ← hcut, joinParts, parts, Text.intercalate_pieces]

theorem exists_stripPrefix {dir f : Path} {more : List Bytes} (hparts : f.parts = dir.stem ++ more)
    (habs : f.isAbsolute = dir.isAbsolute) {b : Bytes} (hlast : more.getLast? = some b)
    (hb : isSilent b = false) :
    ∃ rest, stripPrefix dir f = some rest ∧
      (rest.parts = more ∨ rest.parts = more.dropWhile isSilent) := by
  have hsuffix : more.dropWhile isSilent <:+ f.parts :=
    (List.dropWhile_suffix _).trans ⟨dir.stem, hparts.symm⟩
  have hne : more.dropWhile isSilent ≠ [] := by
    obtain ⟨front, rfl⟩ := List.getLast?_eq_some_iff.1 hlast
    rw [Text.dropWhile_append_cons hb]
    simp
  have hrest : ∀ silent, (∀ b ∈ silent, isSilent b = true) →
      (stripPrefix.rest (silent ++ more)).parts = more.dropWhile isSilent := by
    intro silent hsilent
    rw [stripPrefix.rest, trimBoth_append hsilent hlast hb, parts_joinParts hsuffix hne]
  obtain ⟨silent, hsilent, hdrop⟩ := dropComponents_body dir.stem more
  by_cases hnil : dir.bytes = []
  · obtain ⟨bytes⟩ := dir
    obtain rfl : bytes = [] := hnil
    have hmore : f.parts = more := hparts
    exact ⟨f, stripPrefix_empty habs (hmore ▸ hlast) hb, .inl hmore⟩
  · cases hroot : dir.isAbsolute with
    | true =>
      rw [← hparts] at hdrop
      rw [stripPrefix, components_of_isAbsolute hroot]
      dsimp only
      rw [if_pos (habs.trans hroot), hdrop]
      exact ⟨_, rfl, .inr (hrest silent hsilent)⟩
    | false =>
      obtain ⟨first, ps, hfirst, hfull⟩ := exists_parts_cons hnil hroot
      obtain ⟨tail, htail⟩ := stem_cons hfirst hfull
      have hhead : dir.parts.head? = some first := by rw [hfirst]; rfl
      have hhead' : f.parts.head? = some first := by rw [hparts, htail]; rfl
      have hrelative : f.isAbsolute = false := habs.trans hroot
      by_cases hdot : first = [dot]
      · subst hdot
        obtain ⟨silent, hsilent, hdrop⟩ := dropComponents_body tail more
        rw [stripPrefix, components_of_dot hroot hhead htail]
        dsimp only
        rw [if_pos hhead', hparts, htail, List.cons_append, List.tail_cons, hdrop]
        exact ⟨_, rfl, .inr (hrest silent hsilent)⟩
      · have hloud : isSilent first = false := by simp [isSilent, hfull, hdot]
        have hdot' : ¬ f.parts.head? = some [dot] := by simp [hhead', hdot]
        rw [← hparts, htail, body_cons_loud hloud] at hdrop
        refine ⟨_, ?_, .inr (hrest silent hsilent)⟩
        rw [stripPrefix, components_of_loud hroot hhead htail hloud]
        -- the first component is neither the root nor a dot, so no other branch applies
        rw [Component.ofPart] at hdrop ⊢
        split at hdrop <;> simp_all

end Path

end Lintel
