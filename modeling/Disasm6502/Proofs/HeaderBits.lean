import Disasm6502.Proofs.ImageSections

/-!
The bits of a header. `EncodedBy` says with sums and products which bytes a header is written in;
the parser, which works with masks and shifts, returns a header written in its bytes
(`encodedBy_ofBytes`), and no other header is (`EncodedBy.unique`). So reading a header and writing
one undo each other, and the bits and bytes that no field uses make no difference.
-/

namespace Disasm6502

/-! ## Fields as numbers -/

def Arrangement.number : Arrangement → Nat
  | vertical => 0
  | horizontal => 1

def TvSystem.number : TvSystem → Nat
  | ntsc => 0
  | pal => 1

def Version.number : Version → Nat
  | ines => 0
  | archaicInes => 1
  | nes20 => 2
  | unknown => 3

theorem Arrangement.number_le (a : Arrangement) : a.number ≤ 1 := by cases a <;> simp [number]

theorem TvSystem.number_le (tv : TvSystem) : tv.number ≤ 1 := by cases tv <;> simp [number]

theorem Version.number_le (v : Version) : v.number ≤ 3 := by cases v <;> simp [number]

theorem Arrangement.number_inj {a b : Arrangement} (h : a.number = b.number) : a = b := by
  cases a <;> cases b <;> simp_all [number]

theorem TvSystem.number_inj {a b : TvSystem} (h : a.number = b.number) : a = b := by
  cases a <;> cases b <;> simp_all [number]

theorem Version.number_inj {a b : Version} (h : a.number = b.number) : a = b := by
  cases a <;> cases b <;> simp_all [number]

theorem toNat_bool_inj {a b : Bool} (h : a.toNat = b.toNat) : a = b := by
  cases a <;> cases b <;> simp_all

/-! ## Bits of a byte -/

theorem toNat_flag {mask : UInt8} {k : Nat} (hmask : mask.toNat = 2 ^ k) (byte : UInt8) :
    (flag byte mask).toNat = byte.toNat / 2 ^ k % 2 := by
  rw [flag_eq_testBit hmask, Nat.toNat_testBit]

theorem and_highNibble {n : Nat} (h : n < 256) : n &&& 0xF0 = n / 16 * 16 := by
  have hlow : (n &&& 0xF0) % 2 ^ 4 = 0 := by
    rw [Nat.and_mod_two_pow]
    exact Nat.and_zero _
  have hhigh : (n &&& 0xF0) / 2 ^ 4 = n / 2 ^ 4 % 2 ^ 4 := by
    rw [Nat.and_div_two_pow]
    exact Nat.and_two_pow_sub_one_eq_mod _ 4
  omega

/-- The high half of one byte over the high half of another. -/
theorem toNat_nibbles (low high : UInt8) :
    ((high &&& (0xF0 : UInt8)) ||| (low >>> (4 : UInt8))).toNat =
      high.toNat / 16 * 16 + low.toNat / 16 := by
  have hlow := low.toNat_lt
  have hand : (high &&& (0xF0 : UInt8)).toNat = high.toNat / 16 * 2 ^ 4 := by
    rw [UInt8.toNat_and]
    exact and_highNibble high.toNat_lt
  have hshift : (low >>> (4 : UInt8)).toNat = low.toNat / 16 := by
    rw [UInt8.toNat_shiftRight, Nat.shiftRight_eq_div_pow]
    rfl
  rw [UInt8.toNat_or, hand, hshift, ← Nat.shiftLeft_eq,
    ← Nat.shiftLeft_add_eq_or_of_lt (by omega), Nat.shiftLeft_eq]

namespace Header

/-- Byte 6: the low half of the mapper above four flags. -/
def flags6 (h : Header) : Nat :=
  h.mapper.toNat % 16 * 16 + 8 * h.altNametables.toNat + 4 * h.trainer.toNat +
    2 * h.persistent.toNat + h.arrangement.number

/-- Byte 7: the high half of the mapper above the version and two flags. -/
def flags7 (h : Header) : Nat :=
  h.mapper.toNat / 16 * 16 + 4 * h.version.number + 2 * h.playChoice10.toNat +
    h.vsUnisystem.toNat

/-- The header is written in these bytes. -/
structure EncodedBy (h : Header) (data : Bytes) : Prop where
  prg : (data.getD 4 0).toNat * 16384 = h.prgSize
  chr : (data.getD 5 0).toNat * 8192 = h.chrSize
  flags6 : (data.getD 6 0).toNat = h.flags6
  flags7 : (data.getD 7 0).toNat = h.flags7
  ram : (data.getD 8 0).toNat * 8192 = h.ramSize
  tv : (data.getD 9 0).toNat % 2 = h.tv.number

/-- A header written out; `spare` is what byte 9 has above its lowest bit, and `unused` are the
bytes behind it. -/
def encode (h : Header) (spare : Fin 128) (unused : Bytes) : Bytes :=
  magic ++ [.ofNat (h.prgSize / 16384), .ofNat (h.chrSize / 8192), .ofNat h.flags6,
    .ofNat h.flags7, .ofNat (h.ramSize / 8192), .ofNat (2 * spare + h.tv.number)] ++ unused

/-! ## Reading -/

theorem number_arrangement (bit : Bool) :
    (if bit then Arrangement.horizontal else .vertical).number = bit.toNat := by
  cases bit <;> rfl

theorem number_tv (bit : Bool) : (if bit then TvSystem.pal else .ntsc).number = bit.toNat := by
  cases bit <;> rfl

theorem number_versionOf (flags7 : UInt8) :
    (versionOf flags7).number = 2 * (flag flags7 0x08).toNat + (flag flags7 0x04).toNat := by
  unfold versionOf
  cases flag flags7 0x08 <;> cases flag flags7 0x04 <;> rfl

theorem flags6_ofFields (prg chr f6 f7 ram f9 : UInt8) :
    (ofFields prg chr f6 f7 ram f9).flags6 = f6.toNat := by
  have hlt := f6.toNat_lt
  simp only [flags6, ofFields, toNat_nibbles, number_arrangement,
    toNat_flag (show (0x01 : UInt8).toNat = 2 ^ 0 from rfl),
    toNat_flag (show (0x02 : UInt8).toNat = 2 ^ 1 from rfl),
    toNat_flag (show (0x04 : UInt8).toNat = 2 ^ 2 from rfl),
    toNat_flag (show (0x08 : UInt8).toNat = 2 ^ 3 from rfl)]
  omega

theorem flags7_ofFields (prg chr f6 f7 ram f9 : UInt8) :
    (ofFields prg chr f6 f7 ram f9).flags7 = f7.toNat := by
  have hlt := f6.toNat_lt
  simp only [flags7, ofFields, toNat_nibbles, number_versionOf,
    toNat_flag (show (0x01 : UInt8).toNat = 2 ^ 0 from rfl),
    toNat_flag (show (0x02 : UInt8).toNat = 2 ^ 1 from rfl),
    toNat_flag (show (0x04 : UInt8).toNat = 2 ^ 2 from rfl),
    toNat_flag (show (0x08 : UInt8).toNat = 2 ^ 3 from rfl)]
  omega

theorem encodedBy_ofBytes (data : Bytes) : (ofBytes data).EncodedBy data where
  prg := rfl
  chr := rfl
  flags6 := (flags6_ofFields ..).symm
  flags7 := (flags7_ofFields ..).symm
  ram := rfl
  tv := by
    rw [ofBytes, ofFields, number_tv, toNat_flag (show (0x01 : UInt8).toNat = 2 ^ 0 from rfl),
      Nat.pow_zero, Nat.div_one]

/-- Every field in byte 6 has a place of its own. -/
theorem flags6_places (h : Header) :
    h.flags6 / 16 = h.mapper.toNat % 16 ∧ h.flags6 / 8 % 2 = h.altNametables.toNat ∧
      h.flags6 / 4 % 2 = h.trainer.toNat ∧ h.flags6 / 2 % 2 = h.persistent.toNat ∧
      h.flags6 % 2 = h.arrangement.number := by
  have halt := h.altNametables.toNat_le
  have htrainer := h.trainer.toNat_le
  have hpersistent := h.persistent.toNat_le
  have harrangement := h.arrangement.number_le
  unfold flags6
  omega

/-- Every field in byte 7 has a place of its own. -/
theorem flags7_places (h : Header) :
    h.flags7 / 16 = h.mapper.toNat / 16 ∧ h.flags7 / 4 % 4 = h.version.number ∧
      h.flags7 / 2 % 2 = h.playChoice10.toNat ∧ h.flags7 % 2 = h.vsUnisystem.toNat := by
  have hversion := h.version.number_le
  have hplay := h.playChoice10.toNat_le
  have hvs := h.vsUnisystem.toNat_le
  unfold flags7
  omega

/-- The mapper is put together from the high halves of bytes 6 and 7. -/
theorem toNat_mapper (h : Header) : h.mapper.toNat = h.flags7 / 16 * 16 + h.flags6 / 16 := by
  rw [h.flags6_places.1, h.flags7_places.1]
  omega

/-- Units of memory are determined by the size. -/
theorem units_inj {u u' : UInt8} {unit : Nat} (hpos : 0 < unit)
    (h : u.toNat * unit = u'.toNat * unit) : u = u' :=
  UInt8.toNat_inj.1 (Nat.eq_of_mul_eq_mul_right hpos h)

/-- No two headers are written in the same bytes. -/
theorem EncodedBy.unique {h h' : Header} {data : Bytes} (hd : h.EncodedBy data)
    (hd' : h'.EncodedBy data) : h = h' := by
  obtain ⟨_, halt, htrainer, hpersistent, harrangement⟩ := h.flags6_places
  obtain ⟨_, halt', htrainer', hpersistent', harrangement'⟩ := h'.flags6_places
  obtain ⟨_, hversion, hplay, hvs⟩ := h.flags7_places
  obtain ⟨_, hversion', hplay', hvs'⟩ := h'.flags7_places
  have hmapper : h.mapper = h'.mapper := by
    apply UInt8.toNat_inj.1
    rw [h.toNat_mapper, h'.toNat_mapper, ← hd.flags6, ← hd.flags7, ← hd'.flags6, ← hd'.flags7]
  rw [← hd.flags6, hd'.flags6] at halt htrainer hpersistent harrangement
  rw [← hd.flags7, hd'.flags7] at hversion hplay hvs
  have hprg := units_inj (by omega) (hd.prg.symm.trans hd'.prg)
  have hchr := units_inj (by omega) (hd.chr.symm.trans hd'.chr)
  have hram := units_inj (by omega) (hd.ram.symm.trans hd'.ram)
  cases h
  cases h'
  simp only [mk.injEq]
  exact ⟨hprg, hchr, hram, Arrangement.number_inj (harrangement.symm.trans harrangement'),
    toNat_bool_inj (hpersistent.symm.trans hpersistent'),
    toNat_bool_inj (htrainer.symm.trans htrainer'), toNat_bool_inj (halt.symm.trans halt'),
    toNat_bool_inj (hvs.symm.trans hvs'), toNat_bool_inj (hplay.symm.trans hplay'), hmapper,
    TvSystem.number_inj (hd.tv.symm.trans hd'.tv),
    Version.number_inj (hversion.symm.trans hversion')⟩

/-- The header that is read is the one that is written in the bytes. -/
theorem parse_eq_ok_iff_encodedBy {data : Bytes} {h : Header} :
    parse data = .ok h ↔ byteSize ≤ data.length ∧ data.take 4 = magic ∧ h.EncodedBy data := by
  rw [parse_eq_ok_iff]
  constructor
  · rintro ⟨hle, hmagic, rfl⟩
    exact ⟨hle, hmagic, encodedBy_ofBytes data⟩
  · rintro ⟨hle, hmagic, hd⟩
    exact ⟨hle, hmagic, hd.unique (encodedBy_ofBytes data)⟩

/-! ## Writing -/

/-- A count of units fits a byte. -/
theorem toNat_ofNat_units (u : UInt8) {unit : Nat} (hpos : 0 < unit) :
    (UInt8.ofNat (u.toNat * unit / unit)).toNat = u.toNat := by
  rw [Nat.mul_div_cancel _ hpos, UInt8.ofNat_toNat]

theorem encodedBy_encode (h : Header) (spare : Fin 128) (rest : Bytes) :
    h.EncodedBy (h.encode spare rest) where
  prg := congrArg (· * 16384) (toNat_ofNat_units h.prgUnits (by omega))
  chr := congrArg (· * 8192) (toNat_ofNat_units h.chrUnits (by omega))
  flags6 := by
    obtain ⟨hhigh, _⟩ := h.flags6_places
    exact UInt8.toNat_ofNat_of_lt' (show h.flags6 < 256 by omega)
  flags7 := by
    have hmapper := h.mapper.toNat_lt
    obtain ⟨hhigh, _⟩ := h.flags7_places
    exact UInt8.toNat_ofNat_of_lt' (show h.flags7 < 256 by omega)
  ram := congrArg (· * 8192) (toNat_ofNat_units h.ramUnits (by omega))
  tv := by
    have hspare := spare.isLt
    have htv := h.tv.number_le
    have hbyte : (UInt8.ofNat (2 * spare + h.tv.number)).toNat = 2 * spare + h.tv.number :=
      UInt8.toNat_ofNat_of_lt' (show 2 * spare + h.tv.number < 256 by omega)
    change (UInt8.ofNat (2 * spare + h.tv.number)).toNat % 2 = h.tv.number
    omega

/-- Reading a header is a bijection on the bits that it uses. Whatever bytes follow the magic, the
header that is read is written in them, and every header is read back from the bytes it is written
in, with any spare bits, unused bytes and further data. -/
theorem header_bits_bijective :
    (∀ data : Bytes, 16 ≤ data.length → data.take 4 = [0x4E, 0x45, 0x53, 0x1A] →
      ∃ h, parse data = .ok h ∧ h.EncodedBy data) ∧
      ∀ (h : Header) (spare : Fin 128) (unused extra : Bytes), unused.length = 6 →
        h.EncodedBy (h.encode spare unused) ∧ parse (h.encode spare unused ++ extra) = .ok h := by
  constructor
  · intro data hle hmagic
    exact ⟨ofBytes data, parse_eq_ok_iff.2 ⟨hle, hmagic, rfl⟩, encodedBy_ofBytes data⟩
  · intro h spare unused extra hlength
    refine ⟨encodedBy_encode h spare unused, parse_eq_ok_iff_encodedBy.2 ⟨?_, rfl, ?_⟩⟩
    · simp only [encode, magic, byteSize, List.length_append, List.length_cons, List.length_nil,
        hlength]
      omega
    · rw [encode, List.append_assoc]
      exact encodedBy_encode h spare (unused ++ extra)

/-- Bytes with a mapper in two halves, and a header written with spare bits and data behind it. -/
theorem header_bits_bijective_mapper :
    (∃ h, parse [0x4E, 0x45, 0x53, 0x1A, 2, 1, 0xA5, 0x3A, 1, 0xFF, 0, 1, 2, 3, 4, 5, 6] = .ok h ∧
      h.flags6 = 0xA5 ∧ h.flags7 = 0x3A) ∧
      parse (encode ⟨2, 1, 1, .horizontal, false, true, false, false, true, 0x3A, .pal, .nes20⟩ 127
        [0, 1, 2, 3, 4, 5] ++ [6]) =
        .ok ⟨2, 1, 1, .horizontal, false, true, false, false, true, 0x3A, .pal, .nes20⟩ := by
  obtain ⟨hread, hwrite⟩ := header_bits_bijective
  obtain ⟨h, hparse, hd⟩ :=
    hread [0x4E, 0x45, 0x53, 0x1A, 2, 1, 0xA5, 0x3A, 1, 0xFF, 0, 1, 2, 3, 4, 5, 6] (by decide) rfl
  exact ⟨⟨h, hparse, hd.flags6.symm, hd.flags7.symm⟩, (hwrite _ 127 _ [6] rfl).2⟩

end Header

end Disasm6502
