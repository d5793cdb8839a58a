import Mathlib.Data.Nat.Bitwise
import Disasm6502.Opcode.ModeSet

/-!
Mode sets as sets. `testBit_bits_ofTags` says which bits a list of tags sets; from it follow the
members of the set (`contains_ofTags`), which lists make the same set (`ofTags_eq_iff`) and what
becomes of the bits that no mode has. `resolve_eq_some_iff` describes the search for an opcode's
mode by its result, the first match, without the order in which members are looked at.
-/

namespace Disasm6502

/-! ## Modes and their tags -/

namespace Mode

theorem map_tag_all : all.map tag = (List.range 13).map UInt8.ofNat := by decide

theorem pairwise_tag_all : all.Pairwise fun m m' => m.tag < m'.tag := by decide

theorem toNat_tag_lt (m : Mode) : m.tag.toNat < 13 := by cases m <;> decide

theorem tag_inj {m m' : Mode} (h : m.tag = m'.tag) : m = m' := by
  have hmode : ofTag? m.tag = ofTag? m'.tag := by rw [h]
  rw [ofTag?_tag, ofTag?_tag] at hmode
  exact Option.some.inj hmode

theorem ofTag?_eq_some_iff {t : UInt8} {m : Mode} : ofTag? t = some m ↔ m.tag = t := by
  constructor
  · intro h
    have htag : (all.map tag)[t.toNat]? = some m.tag := by
      rw [List.getElem?_map]
      exact congrArg (Option.map tag) h
    rw [map_tag_all, List.getElem?_map] at htag
    obtain ⟨n, hn, hm⟩ := Option.map_eq_some_iff.1 htag
    obtain ⟨_, rfl⟩ := List.getElem?_eq_some_iff.1 hn
    rw [← hm, List.getElem_range, UInt8.ofNat_toNat]
  · rintro rfl
    exact ofTag?_tag m

/-- The first thirteen tags are those that have a mode. -/
theorem exists_tag_eq_iff {t : UInt8} : (∃ m : Mode, m.tag = t) ↔ t < 13 := by
  constructor
  · rintro ⟨m, rfl⟩
    exact UInt8.lt_iff_toNat_lt.2 m.toNat_tag_lt
  · intro h
    have hlength : t.toNat < all.length := UInt8.lt_iff_toNat_lt.1 h
    exact ⟨all[t.toNat], ofTag?_eq_some_iff.1 (List.getElem?_eq_getElem hlength)⟩

end Mode

namespace ModeSet

/-! ## Bits -/

theorem toNat_bit (t : UInt8) : (bit t).toNat = if t.toNat < 16 then 2 ^ t.toNat else 0 := by
  by_cases h : t.toNat < 16
  · have hpow : 2 ^ t.toNat < 2 ^ 16 := Nat.pow_lt_pow_right (by omega) h
    rw [bit, if_pos (UInt8.lt_iff_toNat_lt.2 h), if_pos h, UInt16.toNat_shiftLeft,
      UInt8.toNat_toUInt16, Nat.mod_eq_of_lt h, UInt16.toNat_one, Nat.one_shiftLeft,
      Nat.mod_eq_of_lt hpow]
  · rw [bit, if_neg (fun hlt => h (UInt8.lt_iff_toNat_lt.1 hlt)), if_neg h, UInt16.toNat_zero]

theorem testBit_bit {t : UInt8} {k : Nat} :
    (bit t).toNat.testBit k = true ↔ k < 16 ∧ t.toNat = k := by
  rw [toNat_bit]
  split
  · rename_i h
    rw [Nat.testBit_two_pow, decide_eq_true_iff]
    omega
  · rename_i h
    rw [Nat.zero_testBit]
    constructor
    · intro hfalse
      cases hfalse
    · omega

/-- Adding tags to a set keeps its bits and sets the bits of the tags. -/
theorem testBit_foldl_bit (tags : List UInt8) (bits : UInt16) (k : Nat) :
    (tags.foldl (fun bits t => bits ||| bit t) bits).toNat.testBit k = true ↔
      bits.toNat.testBit k = true ∨ k < 16 ∧ ∃ t ∈ tags, t.toNat = k := by
  induction tags generalizing bits with
  | nil => simp
  | cons t tags ih =>
    rw [List.foldl_cons, ih, UInt16.toNat_or, Nat.testBit_or, Bool.or_eq_true, testBit_bit,
      or_assoc, ← and_or_left]
    simp only [List.mem_cons, exists_eq_or_imp]

theorem testBit_bits_ofTags {tags : List UInt8} {k : Nat} :
    (ofTags tags).bits.toNat.testBit k = true ↔ k < 16 ∧ ∃ t ∈ tags, t.toNat = k := by
  rw [ofTags, testBit_foldl_bit, UInt16.toNat_zero, Nat.zero_testBit]
  simp

theorem exists_toNat_eq_iff {tags : List UInt8} {t : UInt8} :
    (∃ t' ∈ tags, t'.toNat = t.toNat) ↔ t ∈ tags := by
  constructor
  · rintro ⟨t', ht', heq⟩
    rw [← UInt8.toNat_inj.1 heq]
    exact ht'
  · intro ht
    exact ⟨t, ht, rfl⟩

/-- Two lists make the same set if they have the same tags below 16, and only then. -/
theorem ofTags_eq_iff {tags tags' : List UInt8} :
    ofTags tags = ofTags tags' ↔ ∀ t : UInt8, t < 16 → (t ∈ tags ↔ t ∈ tags') := by
  constructor
  · intro h t ht
    have hlt : t.toNat < 16 := UInt8.lt_iff_toNat_lt.1 ht
    have hbits : (ofTags tags).bits.toNat.testBit t.toNat = true ↔
        (ofTags tags').bits.toNat.testBit t.toNat = true := by rw [h]
    rw [testBit_bits_ofTags, testBit_bits_ofTags, exists_toNat_eq_iff, exists_toNat_eq_iff] at hbits
    simpa [hlt] using hbits
  · intro h
    have hbits : (ofTags tags).bits = (ofTags tags').bits := by
      apply UInt16.toNat_inj.1
      apply Nat.eq_of_testBit_eq
      intro k
      rw [Bool.eq_iff_iff, testBit_bits_ofTags, testBit_bits_ofTags]
      refine and_congr_right fun hk => exists_congr fun t => and_congr_left fun ht => h t ?_
      exact UInt8.lt_iff_toNat_lt.2 (ht ▸ hk)
    exact congrArg ModeSet.mk hbits

/-! ## Members -/

theorem contains_iff_testBit {s : ModeSet} {m : Mode} :
    s.contains m = true ↔ s.bits.toNat.testBit m.tag.toNat = true := by
  have htag : m.tag.toNat < 16 := Nat.lt_trans m.toNat_tag_lt (by omega)
  have hand : (s.bits &&& bit m.tag).toNat =
      (s.bits.toNat.testBit m.tag.toNat).toNat * 2 ^ m.tag.toNat := by
    rw [UInt16.toNat_and, toNat_bit, if_pos htag, Nat.and_two_pow]
  rw [contains, bne_iff_ne, ne_eq, ← UInt16.toNat_inj, hand, UInt16.toNat_zero]
  cases s.bits.toNat.testBit m.tag.toNat with
  | true => simp
  | false => simp

theorem contains_ofTags {tags : List UInt8} {m : Mode} :
    (ofTags tags).contains m = true ↔ m.tag ∈ tags := by
  rw [contains_iff_testBit, testBit_bits_ofTags, exists_toNat_eq_iff]
  exact and_iff_right (Nat.lt_trans m.toNat_tag_lt (by omega))

theorem containsTag_iff {s : ModeSet} {t : UInt8} :
    s.containsTag t = true ↔ ∃ m : Mode, m.tag = t ∧ s.contains m = true := by
  simp only [containsTag, Option.any_eq_true, Mode.ofTag?_eq_some_iff]

theorem containsTag_ofTags {tags : List UInt8} {t : UInt8} :
    (ofTags tags).containsTag t = true ↔ t < 13 ∧ t ∈ tags := by
  rw [containsTag_iff, ← Mode.exists_tag_eq_iff]
  constructor
  · rintro ⟨m, rfl, hm⟩
    exact ⟨⟨m, rfl⟩, contains_ofTags.1 hm⟩
  · rintro ⟨⟨m, rfl⟩, hm⟩
    exact ⟨m, rfl, contains_ofTags.2 hm⟩

theorem mem_modes {s : ModeSet} {m : Mode} : m ∈ s.modes ↔ s.contains m = true := by
  simp [modes, m.mem_all]

theorem mem_map_tag_modes {s : ModeSet} {t : UInt8} :
    t ∈ s.modes.map Mode.tag ↔ s.containsTag t = true := by
  simp only [List.mem_map, mem_modes, containsTag_iff, and_comm]

theorem pairwise_map_tag_modes (s : ModeSet) : (s.modes.map Mode.tag).Pairwise (· < ·) :=
  List.pairwise_map.2 (Mode.pairwise_tag_all.filter _)

/-- A set is made again from its members, but for the bits that no mode has. -/
theorem ofTags_modes (s : ModeSet) : ofTags (s.modes.map Mode.tag) = ⟨s.bits &&& 0x1FFF⟩ := by
  have hbits : (ofTags (s.modes.map Mode.tag)).bits = s.bits &&& 0x1FFF := by
    apply UInt16.toNat_inj.1
    apply Nat.eq_of_testBit_eq
    intro k
    have hmask : (0x1FFF : UInt16).toNat = 2 ^ 13 - 1 := rfl
    rw [Bool.eq_iff_iff, testBit_bits_ofTags, UInt16.toNat_and, Nat.testBit_and, Bool.and_eq_true,
      hmask, Nat.testBit_two_pow_sub_one, decide_eq_true_iff]
    simp only [mem_map_tag_modes, containsTag_iff, contains_iff_testBit]
    constructor
    · rintro ⟨_, _, ⟨m, rfl, hm⟩, rfl⟩
      exact ⟨hm, m.toNat_tag_lt⟩
    · rintro ⟨hm, hk⟩
      have hk' : (UInt8.ofNat k).toNat = k := UInt8.toNat_ofNat_of_lt (Nat.lt_trans hk (by decide))
      obtain ⟨m, htag⟩ := Mode.exists_tag_eq_iff.2 (UInt8.lt_iff_toNat_lt.2 (hk'.symm ▸ hk))
      exact ⟨by omega, _, ⟨m, htag, by rw [htag, hk']; exact hm⟩, hk'⟩
  exact congrArg ModeSet.mk hbits

/-! ## The search for an opcode's mode -/

/-- The member with the lowest tag among those that the opcode encodes. -/
structure FirstMatch (s : ModeSet) (op : UInt8) (m : Mode) : Prop where
  contains : s.contains m = true
  matchesOpcode : m.matchesOpcode op = true
  le : ∀ m' : Mode, s.contains m' = true → m'.matchesOpcode op = true → m.tag ≤ m'.tag

theorem firstMatch_of_resolve {s : ModeSet} {op : UInt8} {m : Mode} (h : s.resolve op = some m) :
    s.FirstMatch op m := by
  refine ⟨contains_of_resolve h, matchesOpcode_of_resolve h, ?_⟩
  intro m' hm' hop'
  obtain ⟨_, before, behind, hall, hbefore⟩ := List.find?_eq_some_iff_append.1 h
  have hmem := m'.mem_all
  have hsorted := Mode.pairwise_tag_all
  rw [hall] at hmem hsorted
  rcases List.mem_append.1 hmem with hmem | hmem
  · have := hbefore m' hmem
    simp [hm', hop'] at this
  · rcases List.mem_cons.1 hmem with rfl | hmem
    · exact UInt8.le_refl _
    · have hlt := (List.pairwise_cons.1 (List.pairwise_append.1 hsorted).2.1).1 m' hmem
      exact UInt8.le_of_lt hlt

theorem resolve_eq_none_iff {s : ModeSet} {op : UInt8} :
    s.resolve op = none ↔ ∀ m : Mode, s.contains m = true → m.matchesOpcode op = false := by
  simp [resolve, List.find?_eq_none, Mode.mem_all]

/-- A search that has something to find ends at the first match. -/
theorem resolve_eq_some_iff {s : ModeSet} {op : UInt8} {m : Mode} :
    s.resolve op = some m ↔ s.FirstMatch op m := by
  constructor
  · exact firstMatch_of_resolve
  · intro h
    cases hfound : s.resolve op with
    | none =>
      have hnot := resolve_eq_none_iff.1 hfound m h.contains
      rw [h.matchesOpcode] at hnot
      cases hnot
    | some m' =>
      have h' := firstMatch_of_resolve hfound
      have hle := h.le m' h'.contains h'.matchesOpcode
      have hge := h'.le m h.contains h.matchesOpcode
      rw [Mode.tag_inj (UInt8.le_antisymm hge hle)]

/-- With more members a search still succeeds, and at no higher tag. -/
theorem resolve_mono {s s' : ModeSet} {op : UInt8} {m : Mode}
    (hsub : ∀ m : Mode, s.contains m = true → s'.contains m = true) (h : s.resolve op = some m) :
    ∃ m', s'.resolve op = some m' ∧ m'.tag ≤ m.tag := by
  obtain ⟨hm, hop, _⟩ := firstMatch_of_resolve h
  cases hfound : s'.resolve op with
  | none =>
    have hnot := resolve_eq_none_iff.1 hfound m (hsub m hm)
    rw [hop] at hnot
    cases hnot
  | some m' => exact ⟨m', rfl, (firstMatch_of_resolve hfound).le m (hsub m hm) hop⟩

/-- The set made from a list of tags has the tags below 13 as its members, however the list is
ordered and whatever it repeats, and a search in it finds the lowest of them that matches. -/
theorem tags_form_searchable_set (tags : List UInt8) :
    (∀ t, (ofTags tags).containsTag t = true ↔ t < 13 ∧ t ∈ tags) ∧
      (((ofTags tags).modes.map Mode.tag).Pairwise (· < ·) ∧
        ∀ t, t ∈ (ofTags tags).modes.map Mode.tag ↔ t < 13 ∧ t ∈ tags) ∧
      (∀ tags' : List UInt8, tags.Perm tags' → ofTags tags' = ofTags tags) ∧
      (∀ copies : List UInt8, copies ⊆ tags → ofTags (tags ++ copies) = ofTags tags) ∧
      (∀ high : List UInt8, (∀ t ∈ high, 16 ≤ t) → ofTags (tags ++ high) = ofTags tags) ∧
      (∀ s : ModeSet, ofTags (s.modes.map Mode.tag) = ⟨s.bits &&& 0x1FFF⟩) ∧
      ∀ op : UInt8,
        (∀ m, (ofTags tags).resolve op = some m ↔
          m.tag ∈ tags ∧ m.matchesOpcode op = true ∧
            ∀ m' : Mode, m'.tag ∈ tags → m'.matchesOpcode op = true → m.tag ≤ m'.tag) ∧
        ((ofTags tags).resolve op = none ↔
          ∀ m : Mode, m.tag ∈ tags → m.matchesOpcode op = false) ∧
        ∀ (tags' : List UInt8) (m : Mode), tags ⊆ tags' → (ofTags tags).resolve op = some m →
          ∃ m', (ofTags tags').resolve op = some m' ∧ m'.tag ≤ m.tag := by
  refine ⟨fun t => containsTag_ofTags, ⟨pairwise_map_tag_modes _, ?_⟩, ?_, ?_, ?_, ofTags_modes, ?_⟩
  · intro t
    rw [mem_map_tag_modes, containsTag_ofTags]
  · intro tags' hperm
    exact ofTags_eq_iff.2 fun t _ => hperm.mem_iff.symm
  · intro copies hcopies
    refine ofTags_eq_iff.2 fun t _ => ?_
    rw [List.mem_append]
    exact or_iff_left_of_imp fun h => hcopies h
  · intro high hhigh
    refine ofTags_eq_iff.2 fun t ht => ?_
    rw [List.mem_append]
    exact or_iff_left_of_imp fun h => absurd ht (UInt8.not_lt.2 (hhigh t h))
  · intro op
    refine ⟨?_, ?_, ?_⟩
    · intro m
      rw [resolve_eq_some_iff]
      constructor
      · rintro ⟨hm, hop, hle⟩
        exact ⟨contains_ofTags.1 hm, hop, fun m' hm' => hle m' (contains_ofTags.2 hm')⟩
      · rintro ⟨hm, hop, hle⟩
        exact ⟨contains_ofTags.2 hm, hop, fun m' hm' => hle m' (contains_ofTags.1 hm')⟩
    · simp only [resolve_eq_none_iff, contains_ofTags]
    · intro tags' m hsub
      exact resolve_mono fun m hm => contains_ofTags.2 (hsub (contains_ofTags.1 hm))

example : (ofTags [12, 14, 1, 200, 10, 1]).modes = [.absolute, .zeroPage, .zeroPageY] := by decide

end ModeSet

end Disasm6502
