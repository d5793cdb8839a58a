import Disasm6502.Proofs.ImageSections

/-!
Why data is refused as an image. `Refused` gives the error for every kind of data by its length, its
first four bytes and the sections its header declares, and `parse_eq_error_iff` says that parsing
reports just that. Bad magic is decided by the first four bytes and so persists under extension; a
prefix of an image has the right magic, or is too short to show it, and can only be truncated.
-/

namespace Disasm6502

/-- The data is shorter than it has to be, as opposed to data of another kind. -/
def ImageError.isTruncated : ImageError → Bool
  | badMagic => false
  | shortHeader _ | shortSection .. => true

namespace Image

/-! ## Sections in the order of the image -/

def sectionOrder : List Section := [.trainer, .prg, .chr]

/-- The size that the header declares for a section; without its flag there is no trainer. -/
def declared (data : Bytes) : Section → Nat
  | .trainer => declaredTrainer data
  | .prg => declaredPrg data
  | .chr => declaredChr data

/-- Where a section starts: behind the header and the sections before it. -/
def sectionStart (data : Bytes) : Section → Nat
  | .trainer => 16
  | .prg => 16 + declared data .trainer
  | .chr => 16 + declared data .trainer + declared data .prg

/-- The first section that ends behind the data. -/
def firstShort? (data : Bytes) : Option Section :=
  sectionOrder.find? fun which => data.length < sectionStart data which + declared data which

/-- The report on a section that ends behind the data. -/
def shortSectionOf (data : Bytes) (which : Section) : ImageError :=
  .shortSection which (declared data which) (sectionStart data which)
    (data.length - sectionStart data which)

/-- Why data is no image. -/
inductive Refused (data : Bytes) : ImageError → Prop where
  | badMagic : 4 ≤ data.length → data.take 4 ≠ Header.magic → Refused data .badMagic
  | header : (4 ≤ data.length → data.take 4 = Header.magic) → data.length < 16 →
      Refused data (.shortHeader data.length)
  | body {which : Section} : 16 ≤ data.length → data.take 4 = Header.magic →
      firstShort? data = some which → Refused data (shortSectionOf data which)

theorem sectionSize_eq_declared (data : Bytes) (which : Section) :
    (Header.ofBytes data).sectionSize which = declared data which := by
  cases which with
  | trainer => exact sectionSize_trainer data
  | prg => exact prgSize_ofBytes data
  | chr => exact chrSize_ofBytes data

theorem mem_sectionOrder (which : Section) : which ∈ sectionOrder := by
  cases which <;> simp [sectionOrder]

/-- If no section ends behind the data, all of them fit. -/
theorem declaredSize_le_of_firstShort? {data : Bytes} (h : firstShort? data = none) :
    declaredSize data ≤ data.length := by
  have hchr := List.find?_eq_none.1 h .chr (mem_sectionOrder .chr)
  exact Nat.not_lt.1 fun hlt => hchr (decide_eq_true hlt)

/-- The first short section starts inside the data: what is before it fits. -/
theorem bounds_of_firstShort? {data : Bytes} {which : Section} (hle : 16 ≤ data.length)
    (h : firstShort? data = some which) :
    sectionStart data which ≤ data.length ∧
      data.length < sectionStart data which + declared data which := by
  have hshort : decide (data.length < sectionStart data which + declared data which) = true :=
    List.find?_some (p := fun s => data.length < sectionStart data s + declared data s) h
  refine ⟨?_, of_decide_eq_true hshort⟩
  simp only [firstShort?, sectionOrder, List.find?_cons] at h
  split at h
  · cases h
    exact hle
  · rename_i htrainer
    split at h
    · cases h
      exact Nat.not_lt.1 (of_decide_eq_false htrainer)
    · rename_i hprg
      split at h
      · cases h
        exact Nat.not_lt.1 (of_decide_eq_false hprg)
      · cases h

/-! ## Outcomes of parsing -/

theorem takeSection_drop_of_lt {which : Section} {size offset : Nat} {data : Bytes}
    (hstart : offset ≤ data.length) (hshort : data.length < offset + size) :
    takeSection which size offset (data.drop offset) =
      .error (.shortSection which size offset (data.length - offset)) := by
  rw [takeSection, List.length_drop, if_pos (by omega)]

/-- Behind a section that fits, the data goes on where the section ends. -/
theorem takeSection_drop_of_le {which : Section} {size offset : Nat} {data : Bytes}
    (hend : offset + size ≤ data.length) :
    takeSection which size offset (data.drop offset) =
      .ok ((data.drop offset).take size, data.drop (offset + size)) := by
  rw [takeSection, List.length_drop, if_neg (by omega), List.drop_drop]

theorem parse_of_firstShort? {data : Bytes} {which : Section} (hle : 16 ≤ data.length)
    (hmagic : data.take 4 = Header.magic) (h : firstShort? data = some which) :
    parse data = .error (shortSectionOf data which) := by
  obtain ⟨hstart, hshort⟩ := bounds_of_firstShort? hle h
  have hheader : Header.parse data = .ok (.ofBytes data) :=
    Header.parse_eq_ok_iff.2 ⟨hle, hmagic, rfl⟩
  simp only [parse, hheader, sectionSize_eq_declared, Header.byteSize]
  -- The sections before the short one end where it starts, so they fit by `hstart`.
  cases which with
  | trainer =>
    simp only [sectionStart] at hstart hshort
    rw [takeSection_drop_of_lt hstart hshort]
    rfl
  | prg =>
    simp only [sectionStart] at hstart hshort
    rw [takeSection_drop_of_le hstart]
    simp only
    rw [takeSection_drop_of_lt hstart hshort]
    rfl
  | chr =>
    simp only [sectionStart] at hstart hshort
    rw [takeSection_drop_of_le (by omega)]
    simp only
    rw [takeSection_drop_of_le hstart]
    simp only
    rw [takeSection_drop_of_lt hstart hshort]
    rfl

theorem parse_of_refused {data : Bytes} {e : ImageError} (h : Refused data e) :
    parse data = .error e := by
  cases h with
  | badMagic hfour hmagic =>
    have hheader : Header.parse data = .error .badMagic := by
      rcases Nat.lt_or_ge data.length Header.byteSize with hlt | hge
      · rw [Header.parse_of_short hlt, if_pos ⟨hfour, hmagic⟩]
      · rw [Header.parse_of_long hge, if_neg hmagic]
    simp only [parse, hheader]
  | header hmagic hlt =>
    have hheader : Header.parse data = .error (.shortHeader data.length) := by
      rw [Header.parse_of_short hlt, if_neg (fun h => h.2 (hmagic h.1))]
    simp only [parse, hheader]
  | body hle hmagic hwhich => exact parse_of_firstShort? hle hmagic hwhich

theorem exists_parse_or_refused (data : Bytes) :
    (∃ i, parse data = .ok i) ∨ ∃ e, Refused data e := by
  by_cases hbad : 4 ≤ data.length ∧ data.take 4 ≠ Header.magic
  · exact .inr ⟨_, .badMagic hbad.1 hbad.2⟩
  have hmagic : 4 ≤ data.length → data.take 4 = Header.magic := fun hfour =>
    not_not.1 fun hne => hbad ⟨hfour, hne⟩
  rcases Nat.lt_or_ge data.length 16 with hlt | hge
  · exact .inr ⟨_, .header hmagic hlt⟩
  cases hwhich : firstShort? data with
  | none =>
    exact .inl (exists_parse_of_declaredSize_le (hmagic (by omega))
      (declaredSize_le_of_firstShort? hwhich))
  | some which => exact .inr ⟨_, .body hge (hmagic (by omega)) hwhich⟩

/-- Parsing fails for the reason why the data is no image. -/
theorem parse_eq_error_iff {data : Bytes} {e : ImageError} :
    parse data = .error e ↔ Refused data e := by
  refine ⟨fun h => ?_, parse_of_refused⟩
  rcases exists_parse_or_refused data with ⟨i, hi⟩ | ⟨e', he'⟩
  · rw [hi] at h
    cases h
  · rw [parse_of_refused he'] at h
    cases h
    exact he'

/-! ## Longer and shorter data -/

theorem parse_eq_badMagic_iff {data : Bytes} :
    parse data = .error .badMagic ↔ 4 ≤ data.length ∧ data.take 4 ≠ Header.magic := by
  rw [parse_eq_error_iff]
  constructor
  · intro h
    cases h with
    | badMagic hfour hmagic => exact ⟨hfour, hmagic⟩
  · rintro ⟨hfour, hmagic⟩
    exact .badMagic hfour hmagic

theorem parse_badMagic_append {data : Bytes} (h : parse data = .error .badMagic) (extra : Bytes) :
    parse (data ++ extra) = .error .badMagic := by
  obtain ⟨hfour, hmagic⟩ := parse_eq_badMagic_iff.1 h
  refine parse_eq_badMagic_iff.2 ⟨?_, ?_⟩
  · rw [List.length_append]
    omega
  · rwa [List.take_append_of_le_length hfour]

/-- Data that can be continued to an image is not of another kind. -/
theorem parse_ne_badMagic_of_isPrefix {pre data : Bytes} {i : Image} (hpre : pre <+: data)
    (h : parse data = .ok i) : parse pre ≠ .error .badMagic := by
  intro hbad
  obtain ⟨extra, rfl⟩ := hpre
  rw [parse_badMagic_append hbad extra] at h
  cases h

theorem isTruncated_iff {e : ImageError} : e.isTruncated = true ↔ e ≠ .badMagic := by
  cases e <;> simp [ImageError.isTruncated]

/-- Only a flagged trainer can be short. -/
theorem testBit_of_firstShort?_trainer {data : Bytes} (hle : 16 ≤ data.length)
    (h : firstShort? data = some .trainer) : (data.getD 6 0).toNat.testBit 2 = true := by
  obtain ⟨_, hshort⟩ := bounds_of_firstShort? hle h
  by_contra hflag
  simp only [sectionStart, declared, declaredTrainer, if_neg hflag] at hshort
  omega

/-- Errors say exactly why data is refused: bad magic if the first four bytes are there and wrong,
else a short header or the first section that ends behind the data, with its size, its start and
what is there of it. So a prefix of an image is accepted or truncated, and bad magic stays. -/
theorem parse_errors_classified (data : Bytes) :
    (∀ e, parse data = .error e →
      (e = .badMagic ↔ 4 ≤ data.length ∧ data.take 4 ≠ [0x4E, 0x45, 0x53, 0x1A]) ∧
      (e ≠ .badMagic → e.isTruncated = true ∧
        (data.length < 16 → e = .shortHeader data.length ∧
          e.message =
            utf8 "header is " ++ Numeral.decimal data.length ++ utf8 " bytes: truncated image") ∧
        (16 ≤ data.length → ∃ which size offset available,
          firstShort? data = some which ∧
          (which = .trainer → (data.getD 6 0).toNat.testBit 2 = true) ∧
          size = declared data which ∧ offset = sectionStart data which ∧
          available + offset = data.length ∧ available < size ∧
          e = .shortSection which size offset available ∧
          e.message = utf8 which.name ++ utf8 " needs " ++ Numeral.decimal size ++
            utf8 " bytes at offset " ++ Numeral.decimal offset ++ utf8 ", " ++
            Numeral.decimal available ++ utf8 " available: truncated image"))) ∧
      (∀ pre i, pre <+: data → parse data = .ok i →
        (∃ j, parse pre = .ok j) ∨
          ∃ e, parse pre = .error e ∧ e.isTruncated = true ∧ e ≠ .badMagic) ∧
      (parse data = .error .badMagic → ∀ extra, parse (data ++ extra) = .error .badMagic) := by
  refine ⟨?_, ?_, parse_badMagic_append⟩
  · intro e he
    have hrefused := parse_eq_error_iff.1 he
    refine ⟨?_, fun hne => ⟨isTruncated_iff.2 hne, ?_, ?_⟩⟩
    · rw [← Header.magic, ← parse_eq_badMagic_iff, he, Except.error.injEq]
    · intro hlt
      cases hrefused with
      | badMagic => exact absurd rfl hne
      | header => exact ⟨rfl, rfl⟩
      | body hle => omega
    · intro hle
      cases hrefused with
      | badMagic => exact absurd rfl hne
      | header _ hlt => omega
      | body _ hmagic hwhich =>
        obtain ⟨hstart, hshort⟩ := bounds_of_firstShort? hle hwhich
        refine ⟨_, _, _, _, hwhich, ?_, rfl, rfl, Nat.sub_add_cancel hstart, by omega, rfl, rfl⟩
        rintro rfl
        exact testBit_of_firstShort?_trainer hle hwhich
  · intro pre i hpre hi
    cases hparse : parse pre with
    | ok j => exact .inl ⟨j, rfl⟩
    | error e =>
      have hne : e ≠ .badMagic := by
        rintro rfl
        exact parse_ne_badMagic_of_isPrefix hpre hi hparse
      exact .inr ⟨e, rfl, isTruncated_iff.2 hne, hne⟩

/-- A flagged trainer of which three bytes are there, an empty image cut inside its header, and a
wrong fourth byte. -/
theorem parse_errors_classified_trainer :
    (∃ e available, parse [0x4E, 0x45, 0x53, 0x1A, 2, 1, 4, 0, 0, 0, 0, 0, 0, 0, 0, 0, 7, 7, 7] =
      .error e ∧ e = .shortSection .trainer 512 16 available ∧ available + 16 = 19) ∧
      (∃ e, parse [0x4E, 0x45, 0x53] = .error e ∧ e.isTruncated = true) ∧
      ∀ extra, parse ([0x4E, 0x45, 0x53, 0x1B] ++ extra) = .error .badMagic := by
  obtain ⟨hshort, _, _⟩ := parse_errors_classified
    [0x4E, 0x45, 0x53, 0x1A, 2, 1, 4, 0, 0, 0, 0, 0, 0, 0, 0, 0, 7, 7, 7]
  obtain ⟨_, hcut, _⟩ := parse_errors_classified
    [0x4E, 0x45, 0x53, 0x1A, 0, 0, 0, 0, 0, 0, 0, 0, 0, 0, 0, 0]
  obtain ⟨_, _, hbad⟩ := parse_errors_classified [0x4E, 0x45, 0x53, 0x1B]
  refine ⟨?_, ?_, hbad rfl⟩
  · obtain ⟨_, htruncated⟩ := hshort (.shortSection .trainer 512 16 3) rfl
    obtain ⟨_, _, hsection⟩ := htruncated nofun
    obtain ⟨which, size, offset, available, hwhich, _, rfl, rfl, hsum, _, he, _⟩ :=
      hsection (by decide)
    cases hwhich
    exact ⟨_, available, rfl, he, hsum⟩
  · obtain ⟨j, hj⟩ | ⟨e, he, htruncated, _⟩ := hcut [0x4E, 0x45, 0x53] _ (by decide) rfl
    · cases hj
    · exact ⟨e, he, htruncated⟩

end Image

end Disasm6502
