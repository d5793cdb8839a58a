import Disasm6502.Program.Listing
import Disasm6502.Proofs.DecoderCalls

/-!
The addresses of a listing. They are sums of instruction sizes, taken anew after decoding, and they
come out as the offsets at which the decoder stood: `getElem?_linesFrom` gives the row of an
instruction, `Decoder.after_of_cut` the decoder in front of it. Each row covers the addresses of the
bytes of its instruction, and the rows of a program cover the addresses of its code without gap or
overlap.
-/

namespace Disasm6502

/-- One of the instruction's bytes is at this address. -/
def Line.Covers (l : Line) (address : Nat) : Prop :=
  l.address ≤ address ∧ address < l.address + l.instruction.size

theorem getElem?_of_isPrefix {α : Type} {l l' : List α} (h : l <+: l') {n : Nat} {x : α}
    (hx : l[n]? = some x) : l'[n]? = some x := by
  obtain ⟨hn, rfl⟩ := List.getElem?_eq_some_iff.1 hx
  exact List.prefix_iff_getElem?.1 h n hn

namespace Decoder

/-- After `n` calls the decoder stands behind the first `n` instructions of the code. -/
theorem after_of_cut {code left : Bytes} {limit : Int} {is : List Instruction}
    (hcut : Cut (code.take limit.toNat) is left) {n : Nat} (hn : n ≤ is.length) :
    (after code limit n).error? = none ∧
      (after code limit n).offset = ((is.take n).flatMap Instruction.encode).length ∧
      (after code limit n).rest = (is.drop n).flatMap Instruction.encode ++ left := by
  induction n with
  | zero => exact ⟨rfl, rfl, hcut.eq_append⟩
  | succ n ih =>
    obtain ⟨herror, hoffset, hrest⟩ := ih (by omega)
    have hi : is[n]? = some is[n] := List.getElem?_eq_getElem hn
    have hwf := hcut.wellFormed _ (List.getElem_mem hn)
    rw [List.drop_eq_getElem_cons hn, List.flatMap_cons, List.append_assoc] at hrest
    rw [after, next_of_wellFormed herror hwf hrest]
    refine ⟨rfl, ?_, rfl⟩
    rw [length_flatMap_take_succ hi, ← hoffset]

/-- The next call returns the next instruction of the code. -/
theorem next_after_of_cut {code left : Bytes} {limit : Int} {is : List Instruction}
    (hcut : Cut (code.take limit.toNat) is left) {n : Nat} {i : Instruction}
    (hi : is[n]? = some i) : (after code limit n).next.1 = .ok i := by
  obtain ⟨hn, rfl⟩ := List.getElem?_eq_some_iff.1 hi
  obtain ⟨herror, _, hrest⟩ := after_of_cut hcut (Nat.le_of_lt hn)
  have hwf := hcut.wellFormed _ (List.getElem_mem hn)
  rw [List.drop_eq_getElem_cons hn, List.flatMap_cons, List.append_assoc] at hrest
  rw [next_of_wellFormed herror hwf hrest]

end Decoder

namespace Program

/-! ## Rows of instructions that start at an address -/

/-- The row of an instruction has the address behind the instructions before it. -/
theorem getElem?_linesFrom (address : Nat) (is : List Instruction) (n : Nat) :
    (linesFrom address is)[n]? =
      is[n]?.map (⟨address + ((is.take n).flatMap Instruction.encode).length, ·⟩) := by
  induction is generalizing address n with
  | nil => rfl
  | cons i is ih =>
    cases n with
    | zero => rfl
    | succ n =>
      rw [linesFrom, List.getElem?_cons_succ, ih, List.getElem?_cons_succ, List.take_succ_cons,
        List.flatMap_cons, List.length_append, i.length_encode, Nat.add_assoc]

theorem map_instruction_linesFrom (address : Nat) (is : List Instruction) :
    (linesFrom address is).map Line.instruction = is := by
  induction is generalizing address with
  | nil => rfl
  | cons i is ih => rw [linesFrom, List.map_cons, ih]

/-- A row lies between the address at which the rows start and the one at which they end. -/
theorem bounds_of_mem_linesFrom {address : Nat} {is : List Instruction} {l : Line}
    (h : l ∈ linesFrom address is) :
    address ≤ l.address ∧
      l.address + l.instruction.size ≤ address + (is.flatMap Instruction.encode).length := by
  induction is generalizing address with
  | nil => cases h
  | cons i is ih =>
    rw [List.flatMap_cons, List.length_append, i.length_encode]
    rcases List.mem_cons.1 h with rfl | h
    · exact ⟨Nat.le_refl _, by simp only; omega⟩
    · have := ih h
      omega

/-- Every row ends before the next ones start. -/
theorem pairwise_linesFrom (address : Nat) (is : List Instruction) :
    (linesFrom address is).Pairwise fun l l' => l.address + l.instruction.size ≤ l'.address := by
  induction is generalizing address with
  | nil => exact .nil
  | cons i is ih =>
    refine .cons ?_ (ih _)
    intro l hl
    exact (bounds_of_mem_linesFrom hl).1

theorem exists_covers_linesFrom {address a : Nat} {is : List Instruction} (hle : address ≤ a)
    (hlt : a < address + (is.flatMap Instruction.encode).length) :
    ∃ l ∈ linesFrom address is, l.Covers a := by
  induction is generalizing address with
  | nil =>
    rw [List.flatMap_nil, List.length_nil] at hlt
    omega
  | cons i is ih =>
    rw [List.flatMap_cons, List.length_append, i.length_encode] at hlt
    by_cases hfirst : a < address + i.size
    · exact ⟨⟨address, i⟩, List.mem_cons_self, hle, hfirst⟩
    · have hrest : address + i.size ≤ a := by omega
      obtain ⟨l, hl, hcovers⟩ := ih hrest (by omega)
      exact ⟨l, List.mem_cons_of_mem _ hl, hcovers⟩

/-- No two rows cover the same address. -/
theorem index_eq_of_covers {address a i j : Nat} {is : List Instruction} {l l' : Line}
    (hl : (linesFrom address is)[i]? = some l) (hl' : (linesFrom address is)[j]? = some l')
    (hcovers : l.Covers a) (hcovers' : l'.Covers a) : i = j := by
  have hpairwise := List.pairwise_iff_getElem.1 (pairwise_linesFrom address is)
  obtain ⟨hi, rfl⟩ := List.getElem?_eq_some_iff.1 hl
  obtain ⟨hj, rfl⟩ := List.getElem?_eq_some_iff.1 hl'
  unfold Line.Covers at hcovers hcovers'
  rcases Nat.lt_trichotomy i j with hlt | heq | hlt
  · have := hpairwise i j hi hj hlt
    omega
  · exact heq
  · have := hpairwise j i hj hi hlt
    omega

/-! ## Rows of a decoded program -/

theorem length_encode_of_decode {code : Bytes} {limit : Int} {p : Program}
    (h : decode code limit = .ok p) :
    (p.instructions.flatMap Instruction.encode).length = limit.toNat := by
  obtain ⟨_, hencode, hle, _⟩ := decode_eq_ok_iff.1 h
  rw [← encode, hencode, List.length_take, Nat.min_eq_left hle]

theorem getElem?_lines {p : Program} {n : Nat} {l : Line} (h : p.lines[n]? = some l) :
    p.instructions[n]? = some l.instruction ∧
      l.address = baseAddress + ((p.instructions.take n).flatMap Instruction.encode).length := by
  rw [lines_eq_linesFrom, getElem?_linesFrom] at h
  obtain ⟨i, hi, rfl⟩ := Option.map_eq_some_iff.1 h
  exact ⟨hi, rfl⟩

/-- The next row starts right behind the instruction. -/
theorem address_succ {p : Program} {n : Nat} {l l' : Line} (hl : p.lines[n]? = some l)
    (hl' : p.lines[n + 1]? = some l') : l'.address = l.address + l.instruction.size := by
  obtain ⟨hi, haddress⟩ := getElem?_lines hl
  obtain ⟨_, haddress'⟩ := getElem?_lines hl'
  rw [haddress', haddress, length_flatMap_take_succ hi, Nat.add_assoc]

/-- The opcode of an instruction stands in the code behind the instructions before it. -/
theorem getElem?_code_of_decode {code : Bytes} {limit : Int} {p : Program}
    (h : decode code limit = .ok p) {n : Nat} {i : Instruction} (hi : p.instructions[n]? = some i) :
    code[((p.instructions.take n).flatMap Instruction.encode).length]? = some i.opcode := by
  have hdrop := (cut_take_of_decode h).drop_eq_encode_append hi
  apply getElem?_of_isPrefix (List.take_prefix limit.toNat code)
  rw [← Nat.add_zero ((p.instructions.take n).flatMap _).length, ← List.getElem?_drop, hdrop]
  exact getElem?_zero_encode_append i _

theorem exists_covers_lines_iff {code : Bytes} {limit : Int} {p : Program}
    (h : decode code limit = .ok p) (a : Nat) :
    (∃ l ∈ p.lines, l.Covers a) ↔ 0x8000 ≤ a ∧ a < 0x8000 + p.size := by
  have hlength := length_encode_of_decode h
  obtain ⟨_, _, _, hsize⟩ := decode_eq_ok_iff.1 h
  rw [lines_eq_linesFrom, hsize]
  constructor
  · rintro ⟨l, hl, hge, hlt⟩
    have hbounds := bounds_of_mem_linesFrom hl
    rw [hlength, baseAddress] at hbounds
    omega
  · rintro ⟨hge, hlt⟩
    refine exists_covers_linesFrom hge ?_
    rw [hlength, baseAddress]
    omega

/-- The rows of a decoded program have the addresses of its bytes. Each row starts where the decoder
stood before it returned the instruction, at a byte that is the opcode, and ends where the next row
starts; together the rows cover each byte up to the limit once. -/
theorem lines_tile_code (code : Bytes) (limit : Int) (p : Program)
    (h : decode code limit = .ok p) :
    p.lines.map Line.instruction = p.instructions ∧
      (∀ n l, p.lines[n]? = some l →
        l.address = 0x8000 + (Decoder.after code limit n).offset ∧
          (Decoder.after code limit n).next.1 = .ok l.instruction ∧
          code[l.address - 0x8000]? = some l.instruction.opcode) ∧
      (∀ n l l', p.lines[n]? = some l → p.lines[n + 1]? = some l' →
        l'.address = l.address + l.instruction.size) ∧
      p.lines.Pairwise (fun l l' => ∀ a, ¬ (l.Covers a ∧ l'.Covers a)) ∧
      (∀ a : Nat, (∃ l ∈ p.lines, l.Covers a) ↔ 0x8000 ≤ a ∧ a < 0x8000 + p.size) ∧
      ∀ k : Nat, k < limit → ∃! n : Nat, ∃ l, p.lines[n]? = some l ∧ l.Covers (0x8000 + k) := by
  have hcut := cut_take_of_decode h
  obtain ⟨_, _, _, hsize⟩ := decode_eq_ok_iff.1 h
  refine ⟨?_, ?_, ?_, ?_, ?_, ?_⟩
  · rw [lines_eq_linesFrom, map_instruction_linesFrom]
  · intro n l hl
    obtain ⟨hi, haddress⟩ := getElem?_lines hl
    have hn := (List.getElem?_eq_some_iff.1 hi).1
    obtain ⟨_, hoffset, _⟩ := Decoder.after_of_cut hcut (Nat.le_of_lt hn)
    refine ⟨?_, Decoder.next_after_of_cut hcut hi, ?_⟩
    · rw [haddress, hoffset]
      rfl
    · rw [haddress, baseAddress, Nat.add_sub_cancel_left]
      exact getElem?_code_of_decode h hi
  · intro n l l' hl hl'
    exact address_succ hl hl'
  · rw [lines_eq_linesFrom]
    refine (pairwise_linesFrom baseAddress p.instructions).imp ?_
    rintro l l' hle a ⟨⟨_, hlt⟩, hge, _⟩
    omega
  · exact exists_covers_lines_iff h
  · intro k hk
    obtain ⟨l, hl, hcovers⟩ := (exists_covers_lines_iff h (0x8000 + k)).2 (by omega)
    obtain ⟨n, hn⟩ := List.mem_iff_getElem?.1 hl
    refine ⟨n, ⟨l, hn, hcovers⟩, ?_⟩
    rintro m ⟨l', hm, hcovers'⟩
    rw [lines_eq_linesFrom] at hm hn
    exact index_eq_of_covers hm hn hcovers' hcovers

/-- A shift, a load and a jump: operands without a byte, with one and with two. -/
theorem lines_tile_code_shift_load_jump :
    ∃ p, decode [0x0A, 0xA9, 0x42, 0x4C, 0x00, 0x80, 0xEA] 6 = .ok p ∧
      p.lines.map Line.address = [0x8000, 0x8001, 0x8003] ∧
      ∃! n : Nat, ∃ l, p.lines[n]? = some l ∧ l.Covers 0x8005 := by
  have h : decode [0x0A, 0xA9, 0x42, 0x4C, 0x00, 0x80, 0xEA] 6 =
      .ok ⟨[⟨0x0A, some .asl, some ⟨some .accumulator, 0⟩⟩,
        ⟨0xA9, some .lda, some ⟨some .immediate, 0x42⟩⟩,
        ⟨0x4C, some .jmp, some ⟨some .absolute, 0x8000⟩⟩], 6⟩ :=
    decode_eq_ok_iff.2 ⟨by decide, rfl, by decide, rfl⟩
  obtain ⟨_, _, _, _, _, hbytes⟩ := lines_tile_code _ _ _ h
  exact ⟨_, h, by decide, hbytes 5 (by decide)⟩

end Program

end Disasm6502
