import Disasm6502.Image.Header
import Disasm6502.Log.Message

/-!
Cartridge images: a header and, in the sizes it declares, the trainer, PRG-ROM and CHR-ROM
sections. Bytes behind the last section are counted and otherwise ignored.
-/

namespace Disasm6502

structure Image where
  header : Header
  trainer : Bytes
  prg : Bytes
  chr : Bytes
  /-- The number of bytes behind the last section. -/
  trailing : Nat
  deriving DecidableEq, Repr

namespace Image

/-- Split a section off the data that starts at `offset`. -/
def takeSection (which : Section) (size offset : Nat) (data : Bytes) :
    Except ImageError (Bytes × Bytes) :=
  if data.length < size then .error (.shortSection which size offset data.length)
  else .ok (data.take size, data.drop size)

def parse (data : Bytes) : Except ImageError Image :=
  match Header.parse data with
  | .error e => .error e
  | .ok h =>
    let trainerAt := Header.byteSize
    let prgAt := trainerAt + h.sectionSize .trainer
    let chrAt := prgAt + h.sectionSize .prg
    match takeSection .trainer (h.sectionSize .trainer) trainerAt (data.drop Header.byteSize) with
    | .error e => .error e
    | .ok (trainer, data) =>
      match takeSection .prg (h.sectionSize .prg) prgAt data with
      | .error e => .error e
      | .ok (prg, data) =>
        match takeSection .chr (h.sectionSize .chr) chrAt data with
        | .error e => .error e
        | .ok (chr, data) => .ok ⟨h, trainer, prg, chr, data.length⟩

def logTag : Bytes := utf8 "cartridge"

/-- What is logged about a parsed image. -/
def messages (i : Image) : List Message :=
  ⟨logTag, i.header.text⟩ ::
    if i.trailing = 0 then []
    else [⟨logTag, Numeral.decimal i.trailing ++ utf8 " trailing bytes ignored"⟩]

theorem takeSection_eq_ok_iff {which : Section} {size offset : Nat} {data taken rest : Bytes} :
    takeSection which size offset data = .ok (taken, rest) ↔
      taken.length = size ∧ data = taken ++ rest := by
  unfold takeSection
  split
  · rename_i short
    constructor
    · intro h; cases h
    · rintro ⟨rfl, rfl⟩; rw [List.length_append] at short; omega
  · constructor
    · intro h; cases h; simp; omega
    · rintro ⟨rfl, rfl⟩; simp

end Image

end Disasm6502
