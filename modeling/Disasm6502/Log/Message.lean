import Disasm6502.Text.Bytes

/-!
Log messages: a tag that names the part speaking and a detail. A message takes one line of the log,
so `Message.clean` keeps newlines out: the tag loses them and the detail has spaces instead.
-/

namespace Disasm6502

structure Message where
  tag : Bytes
  detail : Bytes
  deriving DecidableEq, Repr

namespace Message

/-- Tag and detail on one line, as far as neither holds a newline. -/
def line (m : Message) : Bytes := m.tag ++ utf8 ": " ++ m.detail ++ [newline]

def clean (m : Message) : Message :=
  ⟨m.tag.filter (· != newline), m.detail.map fun b => if b = newline then 0x20 else b⟩

theorem newline_notMem_tag_clean (m : Message) : newline ∉ m.clean.tag := by
  simp [clean]

theorem newline_notMem_detail_clean (m : Message) : newline ∉ m.clean.detail := by
  simp only [clean, List.mem_map, not_exists, not_and]
  intro b _
  split
  · decide
  · assumption

/-- A message that has no newlines stays as it is. -/
theorem clean_of_newline_notMem {m : Message} (htag : newline ∉ m.tag)
    (hdetail : newline ∉ m.detail) : m.clean = m := by
  have tag_eq : m.tag.filter (· != newline) = m.tag := by
    refine List.filter_eq_self.2 fun b hb => ?_
    have : b ≠ newline := fun h => htag (h ▸ hb)
    simpa using this
  have detail_eq : m.detail.map (fun b => if b = newline then 0x20 else b) = m.detail := by
    refine (List.map_congr_left fun b hb => ?_).trans (List.map_id _)
    have : b ≠ newline := fun h => hdetail (h ▸ hb)
    simp [this]
  rw [clean, tag_eq, detail_eq]

theorem clean_clean (m : Message) : m.clean.clean = m.clean :=
  clean_of_newline_notMem m.newline_notMem_tag_clean m.newline_notMem_detail_clean

end Message

end Disasm6502
