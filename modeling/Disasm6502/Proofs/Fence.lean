import Disasm6502.Proofs.Composition
import Disasm6502.Proofs.DecodeWork
import Disasm6502.Proofs.ListingAddresses
import Disasm6502.Proofs.ListingText
import Disasm6502.Proofs.OperandOutcome

/-!
The limit as a fence. `Instruction.readAt` reads an instruction at a position of the whole code,
with nothing but a comparison to keep it before the fence, and every call of the decoder returns
what is read so (`Decoder.Within.readAt_offset`). The loop that reads in place, `decodeInPlace`, is
therefore the loop over the decoder, and as no reading depends on bytes behind the fence
(`Instruction.readAt_congr`), neither does the loop (`decodeInPlace_congr`). Code that is decoded up
to two limits is read the same as far as both reach: the instructions and rows up to the lower limit
are the first ones up to the higher (`instructions_isPrefix`, `lines_isPrefix`).
-/

namespace Disasm6502

/-! ## Reading at a position of the whole code -/

/-- The operand at a position before `stop`, which lies inside of the code. The bound keeps sums of
positions from wrapping. -/
theorem Operand.decodeAt_of_resolve {op : UInt8} {allowed : ModeSet} {m : Mode} {code : Bytes}
    {position stop : Nat} (hm : allowed.resolve op = some m) (hposition : position ≤ stop)
    (hstop : stop ≤ code.length) (hbound : code.length + 2 < 2 ^ 63) :
    decodeAt op allowed code (.ofNat position) (.ofNat stop) =
      if stop < position + m.size then
        .error (.undecodable (.unexpectedEnd position (position + m.size - stop : Nat)))
      else .ok (ofPayload m ((code.drop position).take m.size)) := by
  have hsize := m.size_le_two
  have hfrom : (Int64.ofNat position).toInt = position := Int64.toInt_ofNat_of_lt (by omega)
  have hto : (Int64.ofNat stop).toInt = stop := Int64.toInt_ofNat_of_lt (by omega)
  have hwrap : NoWrap (.ofNat position) (.ofNat stop) := by
    constructor <;> rw [hfrom]
    · exact ⟨by omega, by omega⟩
    · exact ⟨by omega, by omega⟩
    · rw [hto]
      exact ⟨by omega, by omega⟩
  rw [decodeAt_of_firstMatch hwrap (ModeSet.resolve_eq_some_iff.1 hm), hfrom, hto]
  by_cases hshort : stop < position + m.size
  · rw [if_pos (by omega), if_pos hshort, Int.ofNat_sub (Nat.le_of_lt hshort), Int.natCast_add]
  · rw [if_neg (by omega), if_neg hshort]
    by_cases hzero : m.size = 0
    · rw [if_pos hzero, hzero, List.take_zero]
    · rw [if_neg hzero, window?_of_le (by omega), Option.elim_some]

namespace Instruction

/-- The instruction at a position of the code; `stop` is the first position that may not be read. -/
def readAt (code : Bytes) (position stop : Nat) : Except OperandFault Instruction :=
  if stop ≤ position then .error (.undecodable (.unexpectedEnd position 1))
  else
    match code[position]? with
    | none => .error .outOfBounds
    | some op =>
      if (Opcode.modes op).isEmpty then .ok (.ofOpcode op none)
      else
        -- The operand is looked for in all of the code, also in what lies behind `stop`.
        match Operand.decodeAt op (Opcode.modes op) code (.ofNat (position + 1)) (.ofNat stop) with
        | .error fault => .error fault
        | .ok o => .ok (.ofOpcode op (some o))

/-- The instruction at the front of bytes that start at an offset, or what it lacks. -/
def front (offset : Nat) : Bytes → Except DecodeError Instruction
  | [] => .error (.shortfall offset [])
  | op :: rest =>
    if rest.length + 1 < Opcode.length op then .error (.shortfall offset (op :: rest))
    else .ok (.read op (rest.take (Opcode.length op - 1)))

/-- What is read out of the whole code is the instruction at the front of the bytes up to the
fence. -/
theorem readAt_eq_front {code : Bytes} {position stop : Nat} (hposition : position ≤ stop)
    (hstop : stop ≤ code.length) (hbound : code.length + 2 < 2 ^ 63) :
    readAt code position stop =
      (front position ((code.take stop).drop position)).mapError .undecodable := by
  have hlength : ((code.take stop).drop position).length = stop - position := by
    rw [List.length_drop, List.length_take, Nat.min_eq_left hstop]
  cases hbytes : (code.take stop).drop position with
  | nil =>
    rw [hbytes, List.length_nil] at hlength
    rw [readAt, if_pos (by omega)]
    rfl
  | cons op rest =>
    rw [hbytes, List.length_cons] at hlength
    have hop : code[position]? = some op := by
      apply getElem?_of_isPrefix (List.take_prefix stop code)
      rw [← Nat.add_zero position, ← List.getElem?_drop, hbytes]
      rfl
    have hrest : rest = (code.drop (position + 1)).take (stop - (position + 1)) := by
      rw [← List.drop_take, ← List.tail_drop, hbytes, List.tail_cons]
    simp only [readAt, if_neg (show ¬ stop ≤ position by omega), hop, front]
    cases hm : Opcode.mode? op with
    | none =>
      have hlen : Opcode.length op = 1 := by simp [Opcode.length, hm, modeSize]
      rw [if_pos (Opcode.mode?_eq_none_iff.1 hm), if_neg (by omega), read_of_none hm]
      rfl
    | some m =>
      obtain ⟨hne, hresolve⟩ := Opcode.resolve_of_mode?_eq_some hm
      have hlen : Opcode.length op = 1 + m.size := by simp [Opcode.length, hm, modeSize]
      rw [if_neg (by simp [hne]), Operand.decodeAt_of_resolve hresolve (by omega) hstop hbound]
      by_cases hshort : rest.length < m.size
      · have hneeded : position + 1 + m.size - stop = 1 + m.size - (rest.length + 1) := by omega
        rw [if_pos (by omega), if_pos (by omega), DecodeError.shortfall, hlen, hneeded]
        rfl
      · have hpayload : rest.take m.size = (code.drop (position + 1)).take m.size := by
          rw [hrest, List.take_take, Nat.min_eq_left (by omega)]
        rw [if_neg (by omega), if_neg (by omega), read_of_some hm, hlen, Nat.add_sub_cancel_left,
          hpayload]
        rfl

end Instruction

namespace Decoder

theorem fst_next {d : Decoder} (h : d.error? = none) :
    d.next.1 = Instruction.front d.offset d.rest := by
  cases hrest : d.rest with
  | nil =>
    have hphase : d.advance.phase = .failed (.shortfall d.offset []) := by rw [advance_nil h hrest]
    rw [next_eq_error_iff.2 ⟨rfl, hphase⟩, Instruction.front]
  | cons op rest =>
    rw [Instruction.front]
    by_cases hshort : rest.length + 1 < Opcode.length op
    · have hphase : d.advance.phase = .failed (.shortfall d.offset (op :: rest)) := by
        rw [advance_cons h hrest, if_pos hshort]
      rw [next_eq_error_iff.2 ⟨rfl, hphase⟩, if_pos hshort]
    · have hphase : d.advance.phase = .done (.read op (rest.take (Opcode.length op - 1))) := by
        rw [advance_cons h hrest, if_neg hshort]
      rw [next_eq_ok_iff.2 ⟨rfl, hphase⟩, if_neg hshort]

/-- What a call returns is what stands in the whole code at the cursor. -/
theorem Within.readAt_offset {code : Bytes} {limit : Int} {d : Decoder}
    (hwithin : Within code limit d) (h : d.error? = none) (hbound : code.length + 2 < 2 ^ 63) :
    Instruction.readAt code d.offset (fence code limit) = d.next.1.mapError .undecodable := by
  rw [fst_next h, hwithin.rest_eq]
  exact Instruction.readAt_eq_front hwithin.offset_le (fence_le_length code limit) hbound

end Decoder

/-! ## Decoding in place -/

namespace Program

/-- Read instructions out of the whole code from a position on, with the ones so far held last
first. There is no result if a read falls outside of the code. -/
def decodeInPlaceOnto (code : Bytes) (limit : Int) (position : Nat) (done : List Instruction) :
    Option (Except DecodeFailure (List Instruction)) :=
  if position < limit.toNat then
    match Instruction.readAt code position (fence code limit) with
    | .error .outOfBounds => none
    | .error (.undecodable e) => some (.error ⟨done.length, position, e⟩)
    | .ok i => decodeInPlaceOnto code limit (position + i.size) (i :: done)
  else some (.ok done.reverse)
termination_by limit.toNat - position
decreasing_by
  have hpos := i.size_pos
  omega

/-- As `decode`, with the code never cut at the limit. -/
def decodeInPlace (code : Bytes) (limit : Int) : Option (Except DecodeFailure Program) :=
  match decodeInPlaceOnto code limit 0 [] with
  | none => none
  | some (.error f) => some (.error f)
  | some (.ok instructions) => some (.ok ⟨instructions, limit.toNat⟩)

/-- A loop over calls reads in place what it is returned. -/
theorem Finishes.decodeInPlaceOnto_eq {code : Bytes} {limit : Int} {d : Decoder}
    {done : List Instruction} {calls : Nat} {r : Except DecodeFailure (List Instruction)}
    (h : Finishes d done calls r) (hwithin : Decoder.Within code limit d) (herror : d.error? = none)
    (hbound : code.length + 2 < 2 ^ 63) :
    decodeInPlaceOnto code limit d.offset done = some r := by
  have hmore_iff {d : Decoder} (hwithin : Decoder.Within code limit d) (herror : d.error? = none) :
      d.more = true ↔ d.offset < limit.toNat := by
    rw [Decoder.more_iff herror, hwithin.limit_eq]
  induction h with
  | @enough d done hmore =>
    have hend : ¬ d.offset < limit.toNat := by
      rw [← hmore_iff hwithin herror, hmore]
      exact Bool.false_ne_true
    rw [decodeInPlaceOnto, if_neg hend]
  | failed hmore hnext =>
    rw [decodeInPlaceOnto, if_pos ((hmore_iff hwithin herror).1 hmore),
      hwithin.readAt_offset herror hbound, hnext]
    rfl
  | @called d e done i calls r hmore hnext _ ih =>
    obtain ⟨hadvance, hdone⟩ := Decoder.next_eq_ok_iff.1 hnext
    have hoffset : e.offset = d.offset + i.size := by
      have h := Decoder.offset_of_next_ok (d := d) (i := i) (by rw [hnext])
      rwa [hnext] at h
    have herror' : e.error? = none := by simp [Decoder.error?, hdone, Phase.error?]
    have hrest := ih (hadvance ▸ hwithin.advance) herror'
    rw [hoffset] at hrest
    rw [decodeInPlaceOnto, if_pos ((hmore_iff hwithin herror).1 hmore),
      hwithin.readAt_offset herror hbound, hnext]
    exact hrest

/-- Reading in place never falls outside of the code and gives what the decoder gives. -/
theorem decodeInPlace_eq_decode {code : Bytes} (hbound : code.length + 2 < 2 ^ 63) (limit : Int) :
    decodeInPlace code limit = some (decode code limit) := by
  obtain ⟨calls, r, h⟩ := exists_finishes (.start code limit) []
  have hrun : decodeInPlaceOnto code limit 0 [] = some r :=
    h.decodeInPlaceOnto_eq (.start code limit) rfl hbound
  rw [decodeInPlace, hrun, decode, h.decodeOnto_eq]
  cases r <;> rfl

end Program

/-- What is read at a position depends on the bytes before the fence only. -/
theorem Instruction.readAt_congr {code code' : Bytes} {stop : Nat}
    (h : code.take stop = code'.take stop) (hstop : stop ≤ code.length)
    (hstop' : stop ≤ code'.length) (hbound : code.length + 2 < 2 ^ 63)
    (hbound' : code'.length + 2 < 2 ^ 63) (position : Nat) :
    readAt code position stop = readAt code' position stop := by
  by_cases hposition : stop ≤ position
  · rw [readAt, readAt, if_pos hposition, if_pos hposition]
  · rw [readAt_eq_front (by omega) hstop hbound, readAt_eq_front (by omega) hstop' hbound', h]

namespace Program

theorem decodeInPlaceOnto_congr {code code' : Bytes} {limit : Int}
    (h : code.take limit.toNat = code'.take limit.toNat) (hbound : code.length + 2 < 2 ^ 63)
    (hbound' : code'.length + 2 < 2 ^ 63) (position : Nat) (done : List Instruction) :
    decodeInPlaceOnto code limit position done = decodeInPlaceOnto code' limit position done := by
  have hfence : fence code limit = fence code' limit := by
    have hlength := congrArg List.length h
    rwa [List.length_take, List.length_take] at hlength
  have htake : code.take (fence code limit) = code'.take (fence code limit) := by
    rw [fence, ← List.take_eq_take_min, h, List.take_eq_take_min, ← fence, ← fence, hfence]
  have hread (position : Nat) :
      Instruction.readAt code' position (fence code' limit) =
        Instruction.readAt code position (fence code limit) := by
    rw [← hfence]
    exact (Instruction.readAt_congr htake (Decoder.fence_le_length code limit)
      (hfence ▸ Decoder.fence_le_length code' limit) hbound hbound' position).symm
  induction position, done using decodeInPlaceOnto.induct code limit with
  | case1 position done hmore hout =>
    rw [decodeInPlaceOnto, decodeInPlaceOnto, hread, hout]
  | case2 position done hmore e he =>
    rw [decodeInPlaceOnto, decodeInPlaceOnto, hread, he]
  | case3 position done hmore i hi ih =>
    rw [decodeInPlaceOnto, decodeInPlaceOnto.eq_def code', hread, hi]
    simp only [if_pos hmore, ih]
  | case4 position done hmore =>
    rw [decodeInPlaceOnto, decodeInPlaceOnto, if_neg hmore, if_neg hmore]

/-- The fence of the loop that reads in the whole code: what lies behind the limit has no effect. -/
theorem decodeInPlace_congr {code code' : Bytes} {limit : Int}
    (h : code.take limit.toNat = code'.take limit.toNat) (hbound : code.length + 2 < 2 ^ 63)
    (hbound' : code'.length + 2 < 2 ^ 63) :
    decodeInPlace code limit = decodeInPlace code' limit := by
  rw [decodeInPlace, decodeInPlace, decodeInPlaceOnto_congr h hbound hbound']

end Program

/-! ## Two limits -/

/-- Instructions that make up the first bytes of the code are the first ones of its cut. -/
theorem Cut.isPrefix {a b left : Bytes} {is js : List Instruction} (ha : Cut a is [])
    (h : Cut (a ++ b) js left) : is <+: js := by
  obtain ⟨ks, left', hb⟩ := exists_cut b
  exact ⟨ks, ((ha.append hb).unique h).1⟩

namespace Program

/-- Nothing but the bytes before the limit is looked at. -/
theorem decode_of_take_eq {code code' : Bytes} {limit : Int}
    (h : code.take limit.toNat = code'.take limit.toNat) :
    decode code limit = decode code' limit := by
  rw [decode, decode, Decoder.start, Decoder.start, h]

theorem instructions_isPrefix {code : Bytes} {limit limit' : Int} {p q : Program}
    (hle : limit ≤ limit') (hp : decode code limit = .ok p) (hq : decode code limit' = .ok q) :
    p.instructions <+: q.instructions := by
  have hsplit : code.take limit.toNat ++ (code.take limit'.toNat).drop limit.toNat =
      code.take limit'.toNat := by
    have htake : code.take limit.toNat = (code.take limit'.toNat).take limit.toNat := by
      rw [List.take_take, Nat.min_eq_left (by omega)]
    rw [htake, List.take_append_drop]
  have hcut := cut_take_of_decode hq
  rw [← hsplit] at hcut
  exact (cut_take_of_decode hp).isPrefix hcut

theorem linesFrom_append (address : Nat) (is js : List Instruction) :
    linesFrom address (is ++ js) =
      linesFrom address is ++
        linesFrom (address + (is.flatMap Instruction.encode).length) js := by
  induction is generalizing address with
  | nil => rfl
  | cons i is ih =>
    rw [List.cons_append, linesFrom, ih, linesFrom, List.flatMap_cons, List.length_append,
      i.length_encode, Nat.add_assoc, List.cons_append]

theorem lines_isPrefix {p q : Program} (h : p.instructions <+: q.instructions) :
    p.lines <+: q.lines := by
  obtain ⟨is, his⟩ := h
  rw [lines_eq_linesFrom, lines_eq_linesFrom, ← his, linesFrom_append]
  exact List.prefix_append _ _

/-- Rows of the same line show it in the same way, but for leading zeros. -/
theorem rows_shown {p q : Program} (h : p.lines <+: q.lines) {n : Nat} {row : Bytes}
    (hrow : p.rows[n]? = some row) :
    ∃ (row' : Bytes) (l : Line) (digits digits' : Bytes), q.rows[n]? = some row' ∧
      l.ShownBy digits row ∧ l.ShownBy digits' row' := by
  rw [rows, List.getElem?_map] at hrow
  obtain ⟨l, hl, rfl⟩ := Option.map_eq_some_iff.1 hrow
  have hl' : q.lines[n]? = some l := getElem?_of_isPrefix h hl
  refine ⟨l.text q.width, l, _, _, ?_, l.shownBy_text p.width, l.shownBy_text q.width⟩
  rw [rows, List.getElem?_map, hl']
  rfl

/-- The limit fences the decoder. A call reads the whole code and so does a loop over calls, yet
what is decoded depends on the bytes before the limit only, and a higher limit adds instructions and
rows behind those of a lower one. -/
theorem limit_fences_decoder :
    (∀ (code code' : Bytes) (limit : Nat), code.take limit = code'.take limit →
      decode code limit = decode code' limit) ∧
      (∀ (code : Bytes) (limit limit' : Int) (p q : Program), limit ≤ limit' →
        decode code limit = .ok p → decode code limit' = .ok q →
        p.instructions <+: q.instructions ∧ p.lines <+: q.lines ∧
          ∀ (n : Nat) (row : Bytes), p.rows[n]? = some row →
            ∃ (row' : Bytes) (l : Line) (digits digits' : Bytes), q.rows[n]? = some row' ∧
              l.ShownBy digits row ∧ l.ShownBy digits' row') ∧
      (∀ (code : Bytes) (limit : Int) (n : Nat), code.length + 2 < 2 ^ 63 →
        (Decoder.after code limit n).error? = none →
        Instruction.readAt code (Decoder.after code limit n).offset (fence code limit) =
          (Decoder.after code limit n).next.1.mapError .undecodable) ∧
      (∀ (code : Bytes) (limit : Int), code.length + 2 < 2 ^ 63 →
        decodeInPlace code limit = some (decode code limit)) ∧
      ∀ (code code' : Bytes) (limit : Int), code.length + 2 < 2 ^ 63 →
        code'.length + 2 < 2 ^ 63 → code.take limit.toNat = code'.take limit.toNat →
        decodeInPlace code limit = decodeInPlace code' limit := by
  refine ⟨?_, ?_, ?_, fun code limit hbound => decodeInPlace_eq_decode hbound limit,
    fun code code' limit hbound hbound' htake => decodeInPlace_congr htake hbound hbound'⟩
  · intro code code' limit htake
    exact decode_of_take_eq htake
  · intro code limit limit' p q hle hp hq
    have hinstructions := instructions_isPrefix hle hp hq
    have hlines := lines_isPrefix hinstructions
    exact ⟨hinstructions, hlines, fun n row => rows_shown hlines⟩
  · intro code limit n hbound herror
    exact (Decoder.Within.after code limit n).readAt_offset herror hbound

/-- A jump whose address stands behind the limit is refused without regard to it, and what is listed
before the jump stays when the limit takes it in. -/
theorem limit_fences_decoder_jump :
    decode [0xEA, 0x4C, 0x34, 0x12] 2 = decode [0xEA, 0x4C, 0xFF] 2 ∧
      ∃ p q, decode [0xEA, 0x4C, 0x34, 0x12] 1 = .ok p ∧ decode [0xEA, 0x4C, 0x34, 0x12] 4 = .ok q ∧
        p.instructions <+: q.instructions ∧ p.lines <+: q.lines := by
  have hp : decode [0xEA, 0x4C, 0x34, 0x12] 1 = .ok ⟨[⟨0xEA, some .nop, none⟩], 1⟩ :=
    decode_eq_ok_iff.2 ⟨by decide, rfl, by decide, rfl⟩
  have hq : decode [0xEA, 0x4C, 0x34, 0x12] 4 = .ok ⟨[⟨0xEA, some .nop, none⟩,
      ⟨0x4C, some .jmp, some ⟨some .absolute, 0x1234⟩⟩], 4⟩ :=
    decode_eq_ok_iff.2 ⟨by decide, rfl, by decide, rfl⟩
  obtain ⟨hfence, hlimits, _⟩ := limit_fences_decoder
  obtain ⟨hinstructions, hlines, _⟩ := hlimits _ _ _ _ _ (by decide) hp hq
  exact ⟨hfence _ _ 2 rfl, _, _, hp, hq, hinstructions, hlines⟩

end Program

end Disasm6502
