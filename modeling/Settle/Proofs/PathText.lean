/-
  Settle.Proofs.PathText — a path with plain segments is told by the text it gives (see
  `Path.text`).

  Segments that are not empty and have no dots in them, as reading leaves them, can be
  told apart again when they are joined by dots (`text_inj`). They may hold any other
  character.
-/

import Settle.Proofs.Path

namespace Settle.Path

/-- No segment is empty or has a dot in it. -/
def Plain (p : Path) : Prop := ∀ s ∈ p.segments, s ≠ "" ∧ '.' ∉ s.toList

theorem Plain.of_covers {p q : Path} (h : q.Plain) (hc : p.covers q) : p.Plain := fun s hs =>
  h s ((covers_iff.1 hc).subset hs)

/-- Cut at its dots, the text gives the segments. -/
theorem Plain.splitOn_text {p : Path} (h : p.Plain) : p.text.toList.splitOn '.' = p.segments.map String.toList := by
  have hjoin : p.text.toList = ['.'].intercalate (p.segments.map String.toList) := String.toList_intercalate
  rw [hjoin]
  refine List.splitOn_intercalate '.' (fun l hl => ?_) (by simpa using p.nonempty)
  obtain ⟨s, hs, rfl⟩ := List.mem_map.1 hl
  exact (h s hs).2

/-- Segments without dots are told apart in the text. -/
theorem text_inj {p q : Path} (hp : p.Plain) (hq : q.Plain) (h : p.text = q.text) : p = q := by
  have hsegments : p.segments.map String.toList = q.segments.map String.toList := by
    rw [← hp.splitOn_text, ← hq.splitOn_text, h]
  exact ext_segments (List.map_injective_iff.2 (fun _ _ => String.toList_inj.1) hsegments)

theorem text_ne_empty {p : Path} (hp : p.Plain) : p.text ≠ "" := by
  obtain ⟨segments, hne⟩ := p
  cases segments with
  | nil => exact absurd rfl hne
  | cons s rest =>
    intro h
    have hs := (hp s List.mem_cons_self).1
    have hlist : ['.'].intercalate ((s :: rest).map String.toList) = [] := by
      rw [← show ".".toList = ['.'] from rfl, ← String.toList_intercalate]
      exact congrArg String.toList h
    cases rest with
    | nil => exact hs (String.toList_eq_nil_iff.1 (by simpa [List.intercalate] using hlist))
    | cons s' rest => simp [List.intercalate] at hlist

end Settle.Path
