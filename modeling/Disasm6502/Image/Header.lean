import Disasm6502.Text.Numeral

/-!
The 16-byte header of a cartridge image in the iNES family of formats. Memory sizes are kept in the
units in which the header counts them.
-/

namespace Disasm6502

/-- The nametable arrangement. -/
inductive Arrangement where
  | vertical
  | horizontal
  deriving DecidableEq, Repr

inductive TvSystem where
  | ntsc
  | pal
  deriving DecidableEq, Repr

/-- The header format. -/
inductive Version where
  | ines
  | archaicInes
  | nes20
  | unknown
  deriving DecidableEq, Repr

def Arrangement.name : Arrangement → String
  | vertical => "vertical"
  | horizontal => "horizontal"

def TvSystem.name : TvSystem → String
  | ntsc => "NTSC"
  | pal => "PAL"

def Version.name : Version → String
  | ines => "iNES"
  | archaicInes => "archaic iNES"
  | nes20 => "NES 2.0"
  | unknown => "unknown"

structure Header where
  /-- PRG-ROM in units of 16 KiB. -/
  prgUnits : UInt8
  /-- CHR-ROM in units of 8 KiB. -/
  chrUnits : UInt8
  /-- PRG-RAM in units of 8 KiB. -/
  ramUnits : UInt8
  arrangement : Arrangement
  persistent : Bool
  trainer : Bool
  altNametables : Bool
  vsUnisystem : Bool
  playChoice10 : Bool
  mapper : UInt8
  tv : TvSystem
  version : Version
  deriving DecidableEq, Repr

/-- The sections of an image behind its header, in this order. -/
inductive Section where
  | trainer
  | prg
  | chr
  deriving DecidableEq, Repr

def Section.name : Section → String
  | trainer => "trainer"
  | prg => "PRG-ROM"
  | chr => "CHR-ROM"

inductive ImageError where
  /-- The data does not start like an image. -/
  | badMagic
  /-- The data, of this length, is shorter than a header. -/
  | shortHeader (length : Nat)
  /-- A section is shorter than the header says. -/
  | shortSection (which : Section) (size offset available : Nat)
  deriving DecidableEq, Repr

def ImageError.message : ImageError → Bytes
  | badMagic => utf8 "not an iNES image"
  | shortHeader length =>
    utf8 "header is " ++ Numeral.decimal length ++ utf8 " bytes: truncated image"
  | shortSection which size offset available =>
    utf8 which.name ++ utf8 " needs " ++ Numeral.decimal size ++ utf8 " bytes at offset " ++
      Numeral.decimal offset ++ utf8 ", " ++ Numeral.decimal available ++
      utf8 " available: truncated image"

/-- Is the bit of a flag byte that the mask selects set? -/
def flag (byte mask : UInt8) : Bool := byte &&& mask != 0

namespace Header

def byteSize : Nat := 16

def trainerSize : Nat := 512

/-- The four bytes every image starts with. -/
def magic : Bytes := [0x4E, 0x45, 0x53, 0x1A]

def prgSize (h : Header) : Nat := h.prgUnits.toNat * 16384

def chrSize (h : Header) : Nat := h.chrUnits.toNat * 8192

def ramSize (h : Header) : Nat := h.ramUnits.toNat * 8192

/-- The declared size of a section. -/
def sectionSize (h : Header) : Section → Nat
  | .trainer => if h.trainer then trainerSize else 0
  | .prg => h.prgSize
  | .chr => h.chrSize

def versionOf (flags7 : UInt8) : Version :=
  match flag flags7 0x08, flag flags7 0x04 with
  | false, false => .ines
  | false, true => .archaicInes
  | true, false => .nes20
  | true, true => .unknown

def ofFields (prg chr flags6 flags7 ram flags9 : UInt8) : Header where
  prgUnits := prg
  chrUnits := chr
  ramUnits := ram
  arrangement := if flag flags6 0x01 then .horizontal else .vertical
  persistent := flag flags6 0x02
  trainer := flag flags6 0x04
  altNametables := flag flags6 0x08
  vsUnisystem := flag flags7 0x01
  playChoice10 := flag flags7 0x02
  mapper := (flags7 &&& (0xF0 : UInt8)) ||| (flags6 >>> (4 : UInt8))
  tv := if flag flags9 0x01 then .pal else .ntsc
  version := versionOf flags7

/-- Read the header at the start of the data. Wrong magic is reported before missing bytes. -/
def parse : Bytes → Except ImageError Header
  | m₀ :: m₁ :: m₂ :: m₃ :: prg :: chr :: flags6 :: flags7 :: ram :: flags9 ::
      _ :: _ :: _ :: _ :: _ :: _ :: _ =>
    if [m₀, m₁, m₂, m₃] = magic then .ok (ofFields prg chr flags6 flags7 ram flags9)
    else .error .badMagic
  | data =>
    if 4 ≤ data.length ∧ data.take 4 ≠ magic then .error .badMagic
    else .error (.shortHeader data.length)

/-- A size in KiB. -/
def kib (size : Nat) : Bytes := Numeral.decimal (size / 1024) ++ utf8 " KiB"

def boolName (b : Bool) : String := if b then "true" else "false"

def text (h : Header) : Bytes :=
  utf8 h.version.name ++ utf8 ", mapper " ++ Numeral.decimal h.mapper.toNat ++
    utf8 ", PRG-ROM " ++ kib h.prgSize ++ utf8 ", CHR-ROM " ++ kib h.chrSize ++
    utf8 ", PRG-RAM " ++ kib h.ramSize ++ utf8 ", " ++ utf8 h.arrangement.name ++
    utf8 " arrangement, " ++ utf8 h.tv.name ++ utf8 ", trainer " ++ utf8 (boolName h.trainer) ++
    utf8 ", battery " ++ utf8 (boolName h.persistent)

end Header

end Disasm6502
