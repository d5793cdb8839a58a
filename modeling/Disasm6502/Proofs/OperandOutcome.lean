import Disasm6502.Proofs.DecoderCalls
import Disasm6502.Proofs.ModeSets

/-!
What comes of decoding an operand at a freely chosen position. `Operand.Outcome` lists the four
possibilities with their conditions, over integers that do not wrap and by the bytes of the code
themselves; `decodeAt_iff_outcome` says that they describe `decodeAt` completely as long as no sum
of positions leaves the 64-bit range. `window?_congr` and `decodeAt_congr` say that nothing but the
payload is looked at.
-/

namespace Disasm6502

/-! ## Sums of positions -/

/-- The number is one of those that 64 bits hold. -/
def FitsWord (n : Int) : Prop := -2 ^ 63 ≤ n ∧ n < 2 ^ 63

instance (n : Int) : Decidable (FitsWord n) := inferInstanceAs (Decidable (_ ∧ _))

/-- None of the positions that are computed from these two wraps. -/
structure NoWrap (position stop : Int64) : Prop where
  before : FitsWord (position.toInt - 1)
  behind : FitsWord (position.toInt + 2)
  gap : FitsWord (position.toInt + 2 - stop.toInt)

theorem bmod_of_fitsWord {n : Int} (h : FitsWord n) : n.bmod (2 ^ 64) = n :=
  Int.bmod_eq_of_le (by have := h.1; omega) (by have := h.2; omega)

theorem toInt_add_of_fitsWord {a b : Int64} (h : FitsWord (a.toInt + b.toInt)) :
    (a + b).toInt = a.toInt + b.toInt := by
  rw [Int64.toInt_add, bmod_of_fitsWord h]

theorem toInt_sub_of_fitsWord {a b : Int64} (h : FitsWord (a.toInt - b.toInt)) :
    (a - b).toInt = a.toInt - b.toInt := by
  rw [Int64.toInt_sub, bmod_of_fitsWord h]

namespace Operand

/-! ## Bytes at a position -/

theorem window?_eq_none_iff {code : Bytes} {position : Int} {n : Nat} (hn : 0 < n) :
    window? code position n = none ↔ position < 0 ∨ code.length < position + n := by
  by_cases hneg : position < 0
  · simp [window?, hneg]
  · simp only [window?, if_neg hneg, List.length_take, List.length_drop]
    split
    · simp only [reduceCtorEq, false_iff]
      omega
    · simp only [true_iff]
      omega

/-- Only the bytes of the window are looked at. -/
theorem window?_congr {code code' : Bytes} {position : Int} {n : Nat}
    (h : ∀ k : Nat, position ≤ k → k < position + n → code[k]? = code'[k]?) :
    window? code position n = window? code' position n := by
  by_cases hneg : position < 0
  · simp [window?, hneg]
  · have hbytes : (code.drop position.toNat).take n = (code'.drop position.toNat).take n := by
      apply List.ext_getElem?
      intro i
      rw [List.getElem?_take, List.getElem?_take, List.getElem?_drop, List.getElem?_drop]
      split
      · exact h _ (by omega) (by omega)
      · rfl
    simp only [window?, hbytes]

/-- The value that `size` bytes of the code hold from a position on, low byte first. -/
def Stored (code : Bytes) (position : Int) (value : UInt16) : Nat → Prop
  | 0 => value = 0
  | 1 => 0 ≤ position ∧
      ∃ low, code[position.toNat]? = some low ∧ value.toNat = low.toNat
  | _ => 0 ≤ position ∧
      ∃ low high, code[position.toNat]? = some low ∧ code[position.toNat + 1]? = some high ∧
        value.toNat = low.toNat + 256 * high.toNat

theorem bounds_of_stored {code : Bytes} {position : Int} {value : UInt16} {m : Mode}
    (hpos : 0 < m.size) (h : Stored code position value m.size) :
    0 ≤ position ∧ position + m.size ≤ code.length := by
  have hsize : m.size = 1 ∨ m.size = 2 := by
    have := m.size_le_two
    omega
  rcases hsize with hn | hn <;> rw [hn] at h ⊢
  · obtain ⟨hnonneg, low, hlow, _⟩ := h
    obtain ⟨hlt, _⟩ := List.getElem?_eq_some_iff.1 hlow
    exact ⟨hnonneg, by omega⟩
  · obtain ⟨hnonneg, low, high, _, hhigh, _⟩ := h
    obtain ⟨hlt, _⟩ := List.getElem?_eq_some_iff.1 hhigh
    exact ⟨hnonneg, by omega⟩

/-- Bytes that all exist hold one value, which is the one that is read from them. -/
theorem stored_iff_of_le {code : Bytes} {position : Nat} {m : Mode} {value : UInt16}
    (h : position + m.size ≤ code.length) :
    Stored code position value m.size ↔
      value = valueOf ((code.drop position).take m.size) := by
  have hlength : ((code.drop position).take m.size).length = m.size := by
    rw [List.length_take, List.length_drop]
    omega
  have hget (i : Nat) (hi : i < m.size) :
      code[position + i]? = ((code.drop position).take m.size)[i]? := by
    rw [List.getElem?_take, if_pos hi, List.getElem?_drop]
  have hlow := hget 0
  have hhigh := hget 1
  rw [Nat.add_zero] at hlow
  generalize (code.drop position).take m.size = bytes at hlength hlow hhigh ⊢
  rcases bytes_cases hlength with rfl | ⟨low, rfl⟩ | ⟨low, high, rfl⟩
  · rw [← hlength]
    exact Iff.rfl
  · rw [← hlength] at hlow ⊢
    simp [Stored, hlow, valueOf, ← UInt16.toNat_inj]
  · rw [← hlength] at hlow hhigh ⊢
    simp [Stored, hlow, hhigh, valueOf, ← UInt16.toNat_inj, toNat_word, Nat.add_comm]

/-! ## Outcomes -/

/-- What can come of decoding an operand, with the number of bytes used up: no mode fits the opcode,
the payload of the first one that does would run over `stop`, it is not there although it ends
before `stop`, or its value is read. -/
inductive Outcome (op : UInt8) (allowed : ModeSet) (code : Bytes) (position stop : Int) :
    Except OperandFault Operand → Nat → Prop where
  | noMode : (∀ m, allowed.contains m = true → m.matchesOpcode op = false) →
      Outcome op allowed code position stop
        (.error (.undecodable (.invalidEncoding op (position - 1) allowed))) 0
  | overrun {m : Mode} : allowed.FirstMatch op m → stop < position + m.size →
      Outcome op allowed code position stop
        (.error (.undecodable (.unexpectedEnd position (position + m.size - stop)))) 0
  | outside {m : Mode} : allowed.FirstMatch op m → position + m.size ≤ stop →
      0 < m.size → position < 0 ∨ code.length < position + m.size →
      Outcome op allowed code position stop (.error .outOfBounds) 0
  | read {m : Mode} {value : UInt16} : allowed.FirstMatch op m → position + m.size ≤ stop →
      Stored code position value m.size →
      Outcome op allowed code position stop (.ok ⟨some m, value⟩) m.size

variable {op : UInt8} {allowed : ModeSet} {code : Bytes} {position stop : Int64} {m : Mode}

/-- With a mode found, only the two bounds are left to decide. -/
theorem decodeAt_of_firstMatch (hwrap : NoWrap position stop) (hm : allowed.FirstMatch op m) :
    decodeAt op allowed code position stop =
      if stop.toInt < position.toInt + m.size then
        .error (.undecodable
          (.unexpectedEnd position.toInt (position.toInt + m.size - stop.toInt)))
      else if m.size = 0 then .ok (ofPayload m [])
      else
        (window? code position.toInt m.size).elim (.error .outOfBounds) fun bytes =>
          .ok (ofPayload m bytes) := by
  obtain ⟨_, ⟨_, hbehind⟩, ⟨hgap, hgap'⟩⟩ := hwrap
  have hsize := m.size_le_two
  have hsizeInt : (Int64.ofNat m.size).toInt = m.size := Int64.toInt_ofNat_of_lt (by omega)
  have hposition := position.le_toInt
  have hpast : (position + Int64.ofNat m.size).toInt = position.toInt + m.size := by
    rw [toInt_add_of_fitsWord, hsizeInt]
    rw [hsizeInt]
    exact ⟨by omega, by omega⟩
  simp only [decodeAt, ModeSet.resolve_eq_some_iff.2 hm, Int64.lt_iff_toInt_lt, hpast]
  by_cases hover : stop.toInt < position.toInt + m.size
  · have hneeded : (position + Int64.ofNat m.size - stop).toInt =
        position.toInt + m.size - stop.toInt := by
      rw [toInt_sub_of_fitsWord, hpast]
      rw [hpast]
      exact ⟨by omega, by omega⟩
    rw [if_pos hover, if_pos hover, hneeded]
  · rw [if_neg hover, if_neg hover]
    cases window? code position.toInt m.size with
    | none => rfl
    | some bytes => rfl

/-- A payload is there, or it is outside of the code. -/
theorem exists_stored_or_outside (code : Bytes) (position : Int) (m : Mode) :
    (∃ value, Stored code position value m.size) ∨
      0 < m.size ∧ (position < 0 ∨ code.length < position + m.size) := by
  by_cases hzero : m.size = 0
  · exact .inl ⟨0, by rw [hzero]; rfl⟩
  · by_cases hinside : 0 ≤ position ∧ position + m.size ≤ code.length
    · obtain ⟨p, rfl⟩ := Int.eq_ofNat_of_zero_le hinside.1
      exact .inl ⟨_, (stored_iff_of_le (by omega)).2 rfl⟩
    · exact .inr ⟨by omega, by omega⟩

theorem exists_outcome (op : UInt8) (allowed : ModeSet) (code : Bytes) (position stop : Int) :
    ∃ r n, Outcome op allowed code position stop r n := by
  cases hresolve : allowed.resolve op with
  | none => exact ⟨_, _, .noMode (ModeSet.resolve_eq_none_iff.1 hresolve)⟩
  | some m =>
    have hm := ModeSet.resolve_eq_some_iff.1 hresolve
    by_cases hover : stop < position + m.size
    · exact ⟨_, _, .overrun hm hover⟩
    · have hstop : position + m.size ≤ stop := by omega
      rcases exists_stored_or_outside code position m with ⟨value, hstored⟩ | ⟨hpos, houtside⟩
      · exact ⟨_, _, .read hm hstop hstored⟩
      · exact ⟨_, _, .outside hm hstop hpos houtside⟩

theorem decodeAt_of_stored {value : UInt16} (hwrap : NoWrap position stop)
    (hm : allowed.FirstMatch op m) (hstop : position.toInt + m.size ≤ stop.toInt)
    (hstored : Stored code position.toInt value m.size) :
    decodeAt op allowed code position stop = .ok ⟨some m, value⟩ := by
  rw [decodeAt_of_firstMatch hwrap hm, if_neg (by omega)]
  by_cases hzero : m.size = 0
  · rw [hzero] at hstored
    rw [if_pos hzero, show value = 0 from hstored]
    rfl
  · obtain ⟨hnonneg, hend⟩ := bounds_of_stored (by omega) hstored
    obtain ⟨p, hp⟩ := Int.eq_ofNat_of_zero_le hnonneg
    rw [hp] at hstored hend ⊢
    rw [if_neg hzero, window?_of_le (by omega), (stored_iff_of_le (by omega)).1 hstored]
    rfl

theorem decodeAt_of_outcome {r : Except OperandFault Operand} {n : Nat}
    (hwrap : NoWrap position stop)
    (h : Outcome op allowed code position.toInt stop.toInt r n) :
    decodeAt op allowed code position stop = r ∧ consumed r = n := by
  cases h with
  | noMode hnone =>
    have hfront : (position - 1).toInt = position.toInt - 1 := toInt_sub_of_fitsWord hwrap.before
    refine ⟨?_, rfl⟩
    simp only [decodeAt, ModeSet.resolve_eq_none_iff.2 hnone, hfront]
  | overrun hm hover =>
    rw [decodeAt_of_firstMatch hwrap hm, if_pos hover]
    exact ⟨rfl, rfl⟩
  | outside hm hstop hpos houtside =>
    rw [decodeAt_of_firstMatch hwrap hm, if_neg (by omega), if_neg (by omega),
      (window?_eq_none_iff hpos).2 houtside]
    exact ⟨rfl, rfl⟩
  | read hm hstop hstored => exact ⟨decodeAt_of_stored hwrap hm hstop hstored, rfl⟩

/-- The outcome is one of the four, and there is no other. -/
theorem decodeAt_iff_outcome {r : Except OperandFault Operand} {n : Nat}
    (hwrap : NoWrap position stop) :
    decodeAt op allowed code position stop = r ∧
        consumed (decodeAt op allowed code position stop) = n ↔
      Outcome op allowed code position.toInt stop.toInt r n := by
  constructor
  · rintro ⟨rfl, rfl⟩
    obtain ⟨r, n, h⟩ := exists_outcome op allowed code position.toInt stop.toInt
    obtain ⟨hr, hn⟩ := decodeAt_of_outcome hwrap h
    rw [hr, hn]
    exact h
  · intro h
    obtain ⟨hr, hn⟩ := decodeAt_of_outcome hwrap h
    rw [hr]
    exact ⟨rfl, hn⟩

/-- The code matters only where the payload of the mode found stands. -/
theorem decodeAt_congr {code' : Bytes}
    (h : ∀ m, allowed.FirstMatch op m → ∀ k : Nat, position.toInt ≤ k →
      k < position.toInt + m.size → code[k]? = code'[k]?) :
    decodeAt op allowed code position stop = decodeAt op allowed code' position stop := by
  cases hresolve : allowed.resolve op with
  | none => simp only [decodeAt, hresolve]
  | some m =>
    have hwindow := window?_congr (h m (ModeSet.resolve_eq_some_iff.1 hresolve))
    simp only [decodeAt, hresolve, hwindow]

/-- Decoding an operand at a position has one of four outcomes, decided in order. It stays inside of
the code if the position is not negative and `stop` is no later than the end of the code, and it
depends on no byte but those of the payload. -/
theorem decodeAt_determined (op : UInt8) (allowed : ModeSet) (code : Bytes) (position stop : Int64)
    (hwrap : NoWrap position stop) :
    (∀ r n, decodeAt op allowed code position stop = r ∧
        consumed (decodeAt op allowed code position stop) = n ↔
      Outcome op allowed code position.toInt stop.toInt r n) ∧
      (0 ≤ position.toInt → stop.toInt ≤ code.length →
        decodeAt op allowed code position stop ≠ .error .outOfBounds) ∧
      ∀ code' : Bytes,
        (∀ m, allowed.FirstMatch op m → ∀ k : Nat, position.toInt ≤ k →
          k < position.toInt + m.size → code[k]? = code'[k]?) →
        decodeAt op allowed code position stop = decodeAt op allowed code' position stop := by
  refine ⟨fun r n => decodeAt_iff_outcome hwrap, ?_, fun code' => decodeAt_congr⟩
  intro hnonneg hinside hpanic
  obtain ⟨n, hn⟩ : ∃ n, consumed (decodeAt op allowed code position stop) = n := ⟨_, rfl⟩
  cases (decodeAt_iff_outcome hwrap).1 ⟨hpanic, hn⟩ with
  | outside _ hstop _ houtside => omega

/-- A two-byte operand that ends before `stop` but not inside of the code. -/
theorem decodeAt_determined_outside :
    NoWrap 1 9 ∧ decodeAt 0x8D .store [0x8D, 0x00] 1 9 = .error .outOfBounds := by
  have hwrap : NoWrap 1 9 := ⟨by decide, by decide, by decide⟩
  have hm : ModeSet.store.FirstMatch 0x8D .absolute := ModeSet.resolve_eq_some_iff.1 (by decide)
  have houtcome : Outcome 0x8D .store [0x8D, 0x00] 1 9 (.error .outOfBounds) 0 :=
    .outside hm (by decide) (by decide) (.inr (by decide))
  obtain ⟨hoperand, _⟩ := decodeAt_determined 0x8D .store [0x8D, 0x00] 1 9 hwrap
  exact ⟨hwrap, ((hoperand _ _).2 houtcome).1⟩

end Operand

end Disasm6502
