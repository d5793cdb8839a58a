import Mathlib.Data.Nat.Bitwise
import Disasm6502.Image.Basic

/-!
The sections of a cartridge image. `declaredSize` and its parts read the section sizes off the bytes
of the header; `parse_eq_ok_iff` describes a parsed image as a way to write the data as header,
trainer, PRG-ROM, CHR-ROM and further bytes. There is such a way exactly when the data is long
enough (`exists_parse_iff`), and it is the only one.
-/

namespace Disasm6502

theorem flag_eq_testBit {mask : UInt8} {k : Nat} (hmask : mask.toNat = 2 ^ k) (byte : UInt8) :
    flag byte mask = byte.toNat.testBit k := by
  have hand : (byte &&& mask).toNat = (byte.toNat.testBit k).toNat * 2 ^ k := by
    rw [UInt8.toNat_and, hmask, Nat.and_two_pow]
  have hpos : 0 < 2 ^ k := Nat.two_pow_pos k
  cases hbit : byte.toNat.testBit k with
  | true =>
    rw [hbit, Bool.toNat_true, Nat.one_mul] at hand
    have hne : byte &&& mask ≠ 0 := by
      intro h
      rw [h, UInt8.toNat_zero] at hand
      omega
    simp [flag, hne]
  | false =>
    rw [hbit, Bool.toNat_false, Nat.zero_mul] at hand
    have hzero : byte &&& mask = 0 := UInt8.toNat_inj.1 hand
    simp [flag, hzero]

namespace Header

/-- The header that the first bytes of the data hold. -/
def ofBytes (data : Bytes) : Header :=
  ofFields (data.getD 4 0) (data.getD 5 0) (data.getD 6 0) (data.getD 7 0) (data.getD 8 0)
    (data.getD 9 0)

theorem parse_of_short {data : Bytes} (h : data.length < byteSize) :
    parse data = if 4 ≤ data.length ∧ data.take 4 ≠ magic then .error .badMagic
      else .error (.shortHeader data.length) := by
  unfold parse
  split
  · simp only [List.length_cons, byteSize] at h
    omega
  · rfl

theorem parse_of_long {data : Bytes} (h : byteSize ≤ data.length) :
    parse data = if data.take 4 = magic then .ok (ofBytes data) else .error .badMagic := by
  rw [byteSize] at h
  have hcons : data = data[0] :: data[1] :: data[2] :: data[3] :: data[4] :: data[5] :: data[6] ::
      data[7] :: data[8] :: data[9] :: data[10] :: data[11] :: data[12] :: data[13] :: data[14] ::
      data[15] :: data.drop 16 := by
    simp only [List.getElem_cons_drop, List.drop_zero]
  rw [hcons]
  rfl

theorem parse_eq_ok_iff {data : Bytes} {h : Header} :
    parse data = .ok h ↔ byteSize ≤ data.length ∧ data.take 4 = magic ∧ h = ofBytes data := by
  by_cases hlen : byteSize ≤ data.length
  · rw [parse_of_long hlen]
    by_cases hmagic : data.take 4 = magic
    · simp [hlen, hmagic, eq_comm]
    · simp [hmagic]
  · rw [parse_of_short (by omega)]
    constructor
    · intro h
      split at h <;> cases h
    · rintro ⟨hle, _⟩
      exact absurd hle hlen

end Header

namespace Image

/-- The size of the trainer that byte 6 announces. -/
def declaredTrainer (data : Bytes) : Nat := if (data.getD 6 0).toNat.testBit 2 then 512 else 0

/-- The size of the PRG-ROM, which byte 4 counts. -/
def declaredPrg (data : Bytes) : Nat := 16384 * (data.getD 4 0).toNat

/-- The size of the CHR-ROM, which byte 5 counts. -/
def declaredChr (data : Bytes) : Nat := 8192 * (data.getD 5 0).toNat

/-- The size of header and sections together. -/
def declaredSize (data : Bytes) : Nat :=
  16 + declaredTrainer data + declaredPrg data + declaredChr data

theorem sectionSize_trainer (data : Bytes) :
    (Header.ofBytes data).sectionSize .trainer = declaredTrainer data := by
  have hflag : (Header.ofBytes data).trainer = (data.getD 6 0).toNat.testBit 2 :=
    flag_eq_testBit rfl _
  simp only [Header.sectionSize, hflag, declaredTrainer, Header.trainerSize]

theorem prgSize_ofBytes (data : Bytes) : (Header.ofBytes data).prgSize = declaredPrg data :=
  Nat.mul_comm _ _

theorem chrSize_ofBytes (data : Bytes) : (Header.ofBytes data).chrSize = declaredChr data :=
  Nat.mul_comm _ _

/-- The data behind the header is the sections of the image in order, each of the size the header
says, and the bytes that are counted as trailing. -/
structure Sections (data : Bytes) (i : Image) : Prop where
  trainer_length : i.trainer.length = i.header.sectionSize .trainer
  prg_length : i.prg.length = i.header.sectionSize .prg
  chr_length : i.chr.length = i.header.sectionSize .chr
  split : ∃ extra, data.drop Header.byteSize = i.trainer ++ (i.prg ++ (i.chr ++ extra)) ∧
    extra.length = i.trailing

theorem parse_eq_ok_iff {data : Bytes} {i : Image} :
    parse data = .ok i ↔ Header.parse data = .ok i.header ∧ Sections data i := by
  obtain ⟨h, trainer, prg, chr, trailing⟩ := i
  constructor
  · intro hparse
    simp only [parse] at hparse
    split at hparse
    · cases hparse
    rename_i h' hheader
    split at hparse
    · cases hparse
    rename_i _ t rest₁ ht
    split at hparse
    · cases hparse
    rename_i _ p rest₂ hp
    split at hparse
    · cases hparse
    rename_i _ c rest₃ hc
    cases hparse
    obtain ⟨htlen, hdata⟩ := takeSection_eq_ok_iff.1 ht
    obtain ⟨hplen, rfl⟩ := takeSection_eq_ok_iff.1 hp
    obtain ⟨hclen, rfl⟩ := takeSection_eq_ok_iff.1 hc
    exact ⟨hheader, htlen, hplen, hclen, rest₃, hdata, rfl⟩
  · rintro ⟨hheader, htlen, hplen, hclen, extra, hdata, rfl⟩
    have taken (which : Section) (size offset : Nat) (s rest : Bytes) (hs : s.length = size) :
        takeSection which size offset (s ++ rest) = .ok (s, rest) :=
      takeSection_eq_ok_iff.2 ⟨hs, rfl⟩
    simp only at hheader htlen hplen hclen hdata
    simp only [parse, hheader, hdata, taken _ _ _ _ _ htlen, taken _ _ _ _ _ hplen,
      taken _ _ _ _ _ hclen]

/-- Data that starts with a header and is long enough can be cut into sections. -/
theorem exists_parse_of_declaredSize_le {data : Bytes} (hmagic : data.take 4 = Header.magic)
    (hsize : declaredSize data ≤ data.length) : ∃ i, parse data = .ok i := by
  rw [declaredSize] at hsize
  have hheader : Header.parse data = .ok (.ofBytes data) :=
    Header.parse_eq_ok_iff.2 ⟨by rw [Header.byteSize]; omega, hmagic, rfl⟩
  let body := data.drop Header.byteSize
  let afterTrainer := body.drop (declaredTrainer data)
  let afterPrg := afterTrainer.drop (declaredPrg data)
  refine ⟨⟨.ofBytes data, body.take (declaredTrainer data), afterTrainer.take (declaredPrg data),
    afterPrg.take (declaredChr data), (afterPrg.drop (declaredChr data)).length⟩, ?_⟩
  refine parse_eq_ok_iff.2 ⟨hheader, ?_, ?_, ?_, afterPrg.drop (declaredChr data), ?_, rfl⟩
  · rw [sectionSize_trainer, List.length_take, List.length_drop, Header.byteSize]
    omega
  · rw [Header.sectionSize, prgSize_ofBytes, List.length_take, List.length_drop, List.length_drop,
      Header.byteSize]
    omega
  · rw [Header.sectionSize, chrSize_ofBytes, List.length_take, List.length_drop, List.length_drop,
      List.length_drop, Header.byteSize]
    omega
  · rw [List.take_append_drop, List.take_append_drop, List.take_append_drop]

/-- What a parsed image says about the bytes it came from. -/
theorem sections_of_parse {data : Bytes} {i : Image} (h : parse data = .ok i) :
    Header.byteSize ≤ data.length ∧ data.take 4 = Header.magic ∧
      i.trainer.length = declaredTrainer data ∧ i.prg.length = declaredPrg data ∧
      i.chr.length = declaredChr data ∧ i.header = .ofBytes data ∧
      ∃ extra, data = data.take Header.byteSize ++ i.trainer ++ i.prg ++ i.chr ++ extra := by
  obtain ⟨hheader, hsections⟩ := parse_eq_ok_iff.1 h
  obtain ⟨hle, hmagic, hfields⟩ := Header.parse_eq_ok_iff.1 hheader
  obtain ⟨extra, hdata, _⟩ := hsections.split
  refine ⟨hle, hmagic, ?_, ?_, ?_, hfields, extra, ?_⟩
  · rw [hsections.trainer_length, hfields, sectionSize_trainer]
  · rw [hsections.prg_length, hfields, Header.sectionSize, prgSize_ofBytes]
  · rw [hsections.chr_length, hfields, Header.sectionSize, chrSize_ofBytes]
  · simp only [List.append_assoc]
    rw [← hdata, List.take_append_drop]

theorem exists_parse_iff {data : Bytes} :
    (∃ i, parse data = .ok i) ↔
      16 ≤ data.length ∧ data.take 4 = Header.magic ∧ declaredSize data ≤ data.length := by
  constructor
  · rintro ⟨i, hi⟩
    obtain ⟨hle, hmagic, ht, hp, hc, _, extra, hdata⟩ := sections_of_parse hi
    have hlength := congrArg List.length hdata
    simp only [List.length_append, List.length_take, ht, hp, hc] at hlength
    rw [Header.byteSize] at hle hlength
    exact ⟨hle, hmagic, by rw [declaredSize]; omega⟩
  · rintro ⟨_, hmagic, hsize⟩
    exact exists_parse_of_declaredSize_le hmagic hsize

/-- The header of data is decided by its first 16 bytes. -/
theorem ofBytes_append {head : Bytes} (h : head.length = 16) (rest : Bytes) :
    Header.ofBytes (head ++ rest) = .ofBytes head := by
  have same (k : Nat) (hk : k < 16) : (head ++ rest).getD k 0 = head.getD k 0 := by
    rw [List.getD_append _ _ _ _ (by omega)]
  simp only [Header.ofBytes, same 4 (by omega), same 5 (by omega), same 6 (by omega),
    same 7 (by omega), same 8 (by omega), same 9 (by omega)]

theorem parse_sections {head trainer prg chr : Bytes} (hlen : head.length = 16)
    (hmagic : head.take 4 = Header.magic) (ht : trainer.length = declaredTrainer head)
    (hp : prg.length = declaredPrg head) (hc : chr.length = declaredChr head) (extra : Bytes) :
    parse (head ++ trainer ++ prg ++ chr ++ extra) =
      .ok ⟨.ofBytes head, trainer, prg, chr, extra.length⟩ := by
  simp only [List.append_assoc]
  have hheader : Header.parse (head ++ (trainer ++ (prg ++ (chr ++ extra)))) =
      .ok (.ofBytes head) := by
    refine Header.parse_eq_ok_iff.2 ⟨?_, ?_, (ofBytes_append hlen _).symm⟩
    · rw [List.length_append, Header.byteSize]
      omega
    · rw [List.take_append_of_le_length (by omega)]
      exact hmagic
  refine parse_eq_ok_iff.2 ⟨hheader, ?_, ?_, ?_, extra, ?_, rfl⟩
  · rw [sectionSize_trainer, ht]
  · rw [Header.sectionSize, prgSize_ofBytes, hp]
  · rw [Header.sectionSize, chrSize_ofBytes, hc]
  · exact List.drop_left' hlen

/-- Parsing is an exact partition of the data. It succeeds when the declared sections fit, they then
stand in the data one behind the other, and sections put together that way are found again, whatever
follows them. -/
theorem parse_partition (data : Bytes) :
    ((∃ i, parse data = .ok i) ↔
      16 ≤ data.length ∧ data.take 4 = [0x4E, 0x45, 0x53, 0x1A] ∧
        16 + declaredTrainer data + declaredPrg data + declaredChr data ≤ data.length) ∧
      (∀ i, parse data = .ok i →
        i.trainer.length = declaredTrainer data ∧
          i.prg.length = declaredPrg data ∧ i.header.prgSize = declaredPrg data ∧
          i.chr.length = declaredChr data ∧ i.header.chrSize = declaredChr data ∧
          data.take 16 ++ i.trainer ++ i.prg ++ i.chr =
            data.take (16 + declaredTrainer data + declaredPrg data + declaredChr data)) ∧
      ∀ head trainer prg chr extra : Bytes, head.length = 16 →
        head.take 4 = [0x4E, 0x45, 0x53, 0x1A] → trainer.length = declaredTrainer head →
        prg.length = declaredPrg head → chr.length = declaredChr head →
        parse (head ++ trainer ++ prg ++ chr ++ extra) =
          .ok ⟨.ofBytes head, trainer, prg, chr, extra.length⟩ := by
  refine ⟨exists_parse_iff, ?_, ?_⟩
  · intro i hi
    obtain ⟨hle, _, ht, hp, hc, hheader, extra, hdata⟩ := sections_of_parse hi
    refine ⟨ht, hp, ?_, hc, ?_, ?_⟩
    · rw [hheader, prgSize_ofBytes]
    · rw [hheader, chrSize_ofBytes]
    · have hlength : (data.take 16 ++ i.trainer ++ i.prg ++ i.chr).length =
          16 + declaredTrainer data + declaredPrg data + declaredChr data := by
        rw [Header.byteSize] at hle
        simp only [List.length_append, List.length_take, ht, hp, hc, Nat.min_eq_left hle]
      calc data.take 16 ++ i.trainer ++ i.prg ++ i.chr
          = (data.take 16 ++ i.trainer ++ i.prg ++ i.chr ++ extra).take
              (16 + declaredTrainer data + declaredPrg data + declaredChr data) :=
            (List.take_left' hlength).symm
        _ = data.take (16 + declaredTrainer data + declaredPrg data + declaredChr data) := by
            exact congrArg (List.take _) hdata.symm
  · intro head trainer prg chr extra hlen hmagic ht hp hc
    exact parse_sections hlen hmagic ht hp hc extra

end Image

end Disasm6502
