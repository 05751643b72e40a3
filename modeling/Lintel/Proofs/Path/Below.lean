import Lintel.Proofs.Path.Joined

/-!
# Paths below an absolute one

What is left of a path when an absolute one is taken off its front says that the path continues the
other one, component by component. Joining a relative path continues it in the same way. What is
left does not start with a silent part, so that it is never spelled with a dot in front.
-/
namespace Lintel.Path

theorem body_append (ps qs : List Bytes) : body (ps ++ qs) = body ps ++ body qs := by
  rw [body, List.filter_append, List.map_append, ← body, ← body]

theorem body_dropWhile (ps : List Bytes) : body (ps.dropWhile isSilent) = body ps := by
  induction ps with
  | nil => rfl
  | cons b ps ih =>
    cases hb : isSilent b with
    | true => rw [List.dropWhile_cons_of_pos hb, ih, body_cons_silent hb]
    | false => rw [List.dropWhile_cons_of_neg (by simp [hb])]

theorem body_of_dropComponents {cs : List Component} {ps rest : List Bytes}
    (h : dropComponents cs ps = some rest) : body ps = cs ++ body rest ∧ rest <:+ ps := by
  induction cs generalizing ps with
  | nil =>
    rw [dropComponents, Option.some.injEq] at h
    exact ⟨by rw [h, List.nil_append], h ▸ List.suffix_rfl⟩
  | cons c cs ih =>
    have hloud := Text.stops_dropWhile (p := isSilent) ps
    have hsuffix : ps.dropWhile isSilent <:+ ps := List.dropWhile_suffix isSilent
    rw [dropComponents] at h
    rw [← body_dropWhile ps]
    generalize ps.dropWhile isSilent = qs at h hloud hsuffix
    cases qs with
    | nil => cases h
    | cons q qs =>
      dsimp only at h
      split at h
      · rename_i hq
        obtain ⟨hbody, hrest⟩ := ih h
        rw [body_cons_loud (Text.stops_cons.1 hloud), hq, hbody]
        exact ⟨rfl, (hrest.trans (List.suffix_cons q qs)).trans hsuffix⟩
      · cases h

variable {base p c : Path}

theorem stripPrefix_eq_some_iff (hbase : base.isAbsolute = true) :
    stripPrefix base p = some c ↔ p.isAbsolute = true ∧
      ∃ rest, dropComponents (body base.stem) p.parts = some rest ∧ c = stripPrefix.rest rest := by
  rw [stripPrefix, components_of_isAbsolute hbase]
  dsimp only
  cases p.isAbsolute with
  | true => simp only [if_true, true_and, Option.map_eq_some_iff, @eq_comm _ c]
  | false => simp

theorem components_prefix_of_stripPrefix (hbase : base.isAbsolute = true)
    (h : stripPrefix base p = some c) : base.components <+: p.components := by
  obtain ⟨hp, rest, hrest, -⟩ := (stripPrefix_eq_some_iff hbase).1 h
  obtain ⟨hbody, -⟩ := body_of_dropComponents hrest
  rw [components_of_isAbsolute hbase, components_of_isAbsolute hp, ← body_parts p, hbody]
  exact ⟨body rest, rfl⟩

theorem components_join (hbase : base.isAbsolute = true) (hp : p.isAbsolute = false) :
    (base.join p).components = base.components ++ body p.stem := by
  rw [components_of_isAbsolute (isAbsolute_join hbase p), components_of_isAbsolute hbase,
    stem_join base hp, body_append]
  rfl

theorem bytes_ne_of_stripPrefix (hbase : base.isAbsolute = true) (h : stripPrefix base p = some c)
    (u : Bytes) : c.bytes ≠ dot :: separator :: u := by
  obtain ⟨-, rest, hrest, rfl⟩ := (stripPrefix_eq_some_iff hbase).1 h
  have hsuffix := (body_of_dropComponents hrest).2
  have hloud := Text.stops_trimBoth (p := isSilent) rest
  have hmem : ∀ b ∈ Text.trimBoth isSilent rest, separator ∉ b := fun b hb hsep => by
    have hin : b ∈ p.parts :=
      hsuffix.mem ((List.dropWhile_suffix isSilent).mem ((Text.prefix_dropEnd _).mem hb))
    simpa using Text.no_sep_of_mem_pieces hin _ hsep
  change joinParts (Text.trimBoth isSilent rest) ≠ _
  generalize Text.trimBoth isSilent rest = qs at hloud hmem
  intro hdotted
  cases qs with
  | nil => cases hdotted
  | cons q qs =>
    have hparts := Text.pieces_intercalate hmem (by simp)
    have hfirst : Text.pieces (· == separator) (dot :: separator :: u) =
        [dot] :: Text.pieces (· == separator) u :=
      Text.pieces_append_sep (by rfl) [dot] u
    rw [← joinParts, hdotted, hfirst] at hparts
    rw [← (List.cons.inj hparts).1, Text.stops_cons] at hloud
    cases hloud

end Lintel.Path
