import Crossing.Proofs.Path.Join
import Crossing.Proofs.Text.Lossy

/-!
# Displayed paths

A displayed path holds no character of ASCII but slashes and dots that the path does not hold
(`mem_of_mem_display`): cutting a path and taking its components only drops segments of it, and what
cannot be read is shown by a character above ASCII. So what is displayed of a module's path can be
put between separators that the path does not hold.
-/

namespace Crossing.Path

open Text

variable {p base rest : Path} {b : UInt8}

/-- What stands in a segment of a path stands in the path. -/
theorem mem_segment {s : Segment} (hs : s ∈ p.segments) (hb : b ∈ s) : b ∈ p.text.bytes := by
  have hslash : b ≠ slash := fun h => not_mem_of_mem_splitOn hs (h ▸ hb)
  rw [← join_splitOn (c := slash) p.text.bytes, mem_join_iff hslash]
  exact ⟨s, hs, hb⟩

/-- The segments after the start of a path are segments of the path. -/
theorem start_subset (segments : List Segment) : (start segments).2 ⊆ segments := by
  unfold start
  split
  · exact List.subset_cons_self _ _
  · exact List.subset_cons_self _ _
  · exact List.Subset.refl _

/-- Dots apart, the bytes of a component stand in the path. -/
theorem mem_component {component : Component} (hcomponent : component ∈ p.components)
    (hb : b ∈ component.bytes) (hslash : b ≠ slash) (hdot : b ≠ dot) : b ∈ p.text.bytes := by
  cases component with
  | root => exact absurd (List.mem_singleton.mp hb) hslash
  | here => exact absurd (List.mem_singleton.mp hb) hdot
  | up => simp [Component.bytes, hdot] at hb
  | name s =>
    have hfirst : Component.name s ∉ (start p.segments).1 := by
      unfold start
      split <;> simp
    have hinner := (List.mem_append.mp hcomponent).resolve_left hfirst
    obtain ⟨t, ht, hname⟩ := List.mem_map.mp hinner
    obtain rfl : t = s := by
      split at hname
      · contradiction
      · exact Component.name.inj hname
    exact mem_segment (start_subset _ (List.mem_filter.mp ht).1) hb

/-- Cutting segments off drops segments only. -/
theorem dropInner_subset (n : Nat) (segments : List Segment) : dropInner n segments ⊆ segments := by
  fun_induction dropInner n segments with
  | case1 segments => exact List.Subset.refl _
  | case2 => exact List.nil_subset _
  | case3 n s rest hsilent ih => exact List.subset_cons_of_subset s ih
  | case4 n s rest hsilent ih => exact List.subset_cons_of_subset s ih

/-- What is left of a path holds what the path holds. -/
theorem mem_of_mem_stripPrefix? (h : stripPrefix? base p = some rest) (hb : b ∈ rest.text.bytes)
    (hslash : b ≠ slash) : b ∈ p.text.bytes := by
  unfold stripPrefix? at h
  dsimp only at h
  split at h
  · -- If nothing is cut off, the path is left as a whole, and else segments of it are.
    split at h
    · obtain rfl := Option.some.inj h
      exact p.text_trimmed_isPrefix.mem hb
    · obtain rfl := Option.some.inj h
      rw [ofSegments, mem_join_iff hslash] at hb
      obtain ⟨s, hs, hbs⟩ := hb
      have hleft := (List.dropWhile_suffix _).mem ((trimEnd_isPrefix _).mem hs)
      exact mem_segment (start_subset _ (dropInner_subset _ _ hleft)) hbs
  · contradiction

/-- Slashes and dots apart, a displayed path holds a character of ASCII only if the path holds its
byte. -/
theorem mem_of_mem_display {c : Char} (h : c ∈ (display base p).toList) (hc : c.toNat < 0x80)
    (hslash : c ≠ '/') (hdot : c ≠ '.') : .ofNat c.toNat ∈ p.text.bytes := by
  have hne {d : Char} (hd : d.toNat < 0x80) (hcd : c ≠ d) :
      UInt8.ofNat c.toNat ≠ .ofNat d.toNat := by
    intro heq
    have hnat := congrArg UInt8.toNat heq
    rw [Utf8.toNat_byte (by omega), Utf8.toNat_byte (by omega)] at hnat
    exact hcd (Char.toNat_inj.mp hnat)
  unfold display at h
  split at h
  · next rest hrest =>
    have hjoin : c ∈ Text.join ['/'] (rest.components.map fun c => Utf8.decodeLossy c.bytes) := by
      simpa [hslash, hdot] using h
    obtain ⟨s, hs, hcs⟩ := (mem_join_iff hslash).mp hjoin
    obtain ⟨component, hcomponent, rfl⟩ := List.mem_map.mp hs
    have hbyte := (Utf8.mem_decodeLossy_iff hc).mp hcs
    have hnslash : UInt8.ofNat c.toNat ≠ slash := hne (d := '/') (by decide) hslash
    have hndot : UInt8.ofNat c.toNat ≠ dot := hne (d := '.') (by decide) hdot
    exact mem_of_mem_stripPrefix? hrest (mem_component hcomponent hbyte hnslash hndot) hnslash
  · rw [String.toList_ofList, List.mem_map] at h
    obtain ⟨d, hd, heq⟩ := h
    split at heq
    · exact absurd heq.symm hslash
    · rw [heq, shown, OsText.shown, String.toList_ofList] at hd
      exact (Utf8.mem_decodeLossy_iff hc).mp hd

/-- A path that is not empty is displayed by a text that is not empty. -/
theorem display_ne_empty (hp : p.text.bytes ≠ []) : display base p ≠ "" := by
  unfold display
  split
  · simp
  · simpa [shown, OsText.shown, Utf8.decodeLossy_eq_nil_iff] using hp

end Crossing.Path
