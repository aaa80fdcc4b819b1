import RiceVM.Limbo.RoundTrip

/-!
The instruction stream and the data section, each written and read on its own. Where every
number is in the range of the operand encoding the writer succeeds, and the loader reads back
what it wrote whatever follows.
-/
namespace RiceVM
open Exec Loader Limbo

/-- A number the operand encoding represents. -/
def Word.InRange (v : Word) : Prop := OPERAND_MIN ≤ v.toInt ∧ v.toInt ≤ OPERAND_MAX

def MiddleOperand.InRange (mid : MiddleOperand) : Prop := mid.register1.InRange

def Operand.InRange (op : Operand) : Prop := op.register1.InRange ∧ op.register2.InRange

def Instruction.InRange (inst : Instruction) : Prop :=
  inst.middle.InRange ∧ inst.source.InRange ∧ inst.destination.InRange

/-- An operand whose mode is one of the format's and whose unused registers are zero. -/
def Operand.Carried (op : Operand) : Prop :=
  match op.mode with
  | .offsetIndirectMp | .offsetIndirectFp | .immediate => op.register2 = 0
  | .offsetDoubleIndirectMp | .offsetDoubleIndirectFp => True
  | .none => op.register1 = 0 ∧ op.register2 = 0
  | _ => False

def MiddleOperand.Carried (mid : MiddleOperand) : Prop :=
  match mid.mode with
  | .none => mid.register1 = 0
  | _ => True

def Instruction.Carried (inst : Instruction) : Prop :=
  inst.middle.Carried ∧ inst.source.Carried ∧ inst.destination.Carried

/-- An item with an offset that is not negative, both it and the count in range. -/
def DataItem.InRange (item : DataItem) : Prop :=
  item.Encodable ∧
    match item with
    | .bytes offset values => offset.InRange ∧ values.length < 2 ^ 29
    | .words offset values => offset.InRange ∧ values.length < 2 ^ 29
    | .bigs offset values => offset.InRange ∧ values.length < 2 ^ 29
    | .reals offset values => offset.InRange ∧ values.length < 2 ^ 29
    | .string offset value => offset.InRange ∧ (Utf8.asBytes value).length < 2 ^ 29
    | .array offset _ _ => offset.InRange
    | .setArray offset _ => offset.InRange
    | .restoreBase => True

namespace Limbo

theorem asWritten_operand {op : Operand} (h : op.Carried) : op.asWritten = op := by
  obtain ⟨mode, register1, register2⟩ := op
  cases mode with
  | offsetIndirectMp | offsetIndirectFp | immediate =>
      cases h
      rfl
  | offsetDoubleIndirectMp | offsetDoubleIndirectFp => rfl
  | none =>
      obtain ⟨hfirst, hsecond⟩ := h
      cases hfirst
      cases hsecond
      rfl
  | reserved1 | reserved2 => cases h

theorem asWritten_middle {mid : MiddleOperand} (h : mid.Carried) : mid.asWritten = mid := by
  obtain ⟨mode, register1⟩ := mid
  cases mode with
  | none =>
      cases h
      rfl
  | smallImmediate | smallOffsetFp | smallOffsetMp => rfl

theorem asWritten_instruction {inst : Instruction} (h : inst.Carried) : inst.asWritten = inst := by
  obtain ⟨hmid, hsrc, hdst⟩ := h
  unfold Instruction.asWritten
  rw [asWritten_middle hmid, asWritten_operand hsrc, asWritten_operand hdst]

theorem map_asWritten {code : List Instruction} (h : ∀ inst ∈ code, inst.Carried) :
    code.map (·.asWritten) = code := by
  rw [List.map_congr_left fun inst hinst => asWritten_instruction (h inst hinst)]
  exact List.map_id' code

/-! Every number in range is written. -/

theorem writes_writeOp {v : Word} (h : v.InRange) : Writes (writeOp v) := by
  unfold writeOp
  split
  · exact .emit _
  split
  · exact .emit _
  split
  · exact .emit _
  · unfold Word.InRange at h
    rw [if_pos h]
    exact .emit _

theorem writes_middleOperand {mid : MiddleOperand} (h : mid.InRange) :
    Writes (writeMiddleOperand mid) := by
  unfold writeMiddleOperand
  cases mid.mode with
  | none => exact .pure
  | smallImmediate | smallOffsetFp | smallOffsetMp => exact writes_writeOp h

theorem writes_operand {op : Operand} (h : op.InRange) : Writes (writeOperand op) := by
  unfold writeOperand
  cases op.mode with
  | none | reserved1 | reserved2 => exact .pure
  | offsetIndirectMp | offsetIndirectFp | immediate => exact writes_writeOp h.1
  | offsetDoubleIndirectMp | offsetDoubleIndirectFp =>
      exact (writes_writeOp h.1).bind (writes_writeOp h.2)

theorem writes_instruction {inst : Instruction} (h : inst.InRange) :
    Writes (writeInstruction inst) := by
  obtain ⟨hmid, hsrc, hdst⟩ := h
  refine (Writes.emit _).bind ((Writes.emit _).bind ((writes_middleOperand hmid).bind ?_))
  exact (writes_operand hsrc).bind (writes_operand hdst)

theorem inRange_ofUsize {n : Nat} (h : n < 2 ^ 29) : (Word.ofUsize n).InRange := by
  have hint : (Word.ofUsize n).toInt = n := by
    rw [BitVec.toInt_eq_toNat_of_msb (Word.msb_ofUsize (by omega)), Word.toNat_ofUsize (by omega)]
  unfold Word.InRange OPERAND_MIN OPERAND_MAX
  omega

theorem writes_dataHeader (itemType : Byte) {count offset : Word} (hcount : count.InRange)
    (hoffset : offset.InRange) : Writes (writeDataHeader itemType count offset) := by
  unfold writeDataHeader
  refine Writes.bind ?_ (writes_writeOp hoffset)
  split
  · exact .emit _
  · exact (Writes.emit _).bind (writes_writeOp hcount)

/-- The header of the items with a count, and values that are written without a check. -/
theorem writes_counted (itemType : Byte) {n : Nat} {offset : Word} {w : Writer}
    (h : offset.InRange ∧ n < 2 ^ 29) (hw : Writes w) :
    Writes (writeDataHeader itemType (.ofUsize n) offset >>= fun _ => w) :=
  (writes_dataHeader itemType (inRange_ofUsize h.2) h.1).bind hw

theorem writes_dataItem {item : DataItem} (h : item.InRange) : Writes (writeDataItem item) := by
  obtain ⟨_, h⟩ := h
  cases item with
  | bytes offset values => exact writes_counted 1 h (.emit _)
  | words offset values => exact writes_counted 2 h (.each fun _ _ => .emit _)
  | string offset value => exact writes_counted 3 h (.emit _)
  | reals offset values => exact writes_counted 4 h (.each fun _ _ => .emit _)
  | array offset elementType length =>
      exact (Writes.emit _).bind ((writes_writeOp h).bind ((Writes.emit _).bind (.emit _)))
  | setArray offset index => exact (Writes.emit _).bind ((writes_writeOp h).bind (.emit _))
  | restoreBase => exact (Writes.emit _).bind (writes_writeOp ⟨by decide, by decide⟩)
  | bigs offset values => exact writes_counted 8 h (.each fun _ _ => .emit _)

theorem writes_data {items : List DataItem} (h : ∀ item ∈ items, item.InRange) :
    Writes (writeData items) :=
  (Writes.each fun item hitem => writes_dataItem (h item hitem)).bind (.emit _)

instance (v : Word) : Decidable v.InRange := inferInstanceAs (Decidable (_ ∧ _))

instance (mid : MiddleOperand) : Decidable mid.InRange :=
  inferInstanceAs (Decidable mid.register1.InRange)

instance (op : Operand) : Decidable op.InRange := inferInstanceAs (Decidable (_ ∧ _))

instance (inst : Instruction) : Decidable inst.InRange := inferInstanceAs (Decidable (_ ∧ _))

/-- Both sections are written, and whatever follows them the loader reads them back and stops
where they end; the instructions come back as the format carries them. -/
theorem sections_inverted {code : List Instruction} {items : List DataItem} {count : Word}
    (hcount : count.toInt = code.length) (hcode : ∀ inst ∈ code, inst.InRange)
    (hitems : ∀ item ∈ items, item.InRange) :
    (∃ bytes, each writeInstruction code [] = .ok () bytes ∧
      ∀ rest, parseCode count (bytes ++ rest) = .ok (code.map (·.asWritten)) rest) ∧
    ((∀ inst ∈ code, inst.Carried) → code.map (·.asWritten) = code) ∧
    ∃ bytes, writeData items [] = .ok () bytes ∧
      ∀ rest, parseData (bytes ++ rest) = .ok items rest := by
  refine ⟨?_, map_asWritten, ?_⟩
  · refine (codes_code hcount).inverts (.each fun inst hinst => ?_)
    exact writes_instruction (hcode inst hinst)
  · exact (codes_data fun item hitem => (hitems item hitem).1).inverts (writes_data hitems)

/-- A two byte and a four byte operand, a middle operand, and an item of sixteen bytes. -/
theorem boundary_sections_inverted :
    let code : List Instruction :=
      [⟨.movw, ⟨.immediate, -65, 0⟩, .unused, ⟨.offsetDoubleIndirectFp, 8191, 8192⟩⟩,
        ⟨.addw, ⟨.offsetIndirectFp, 63, 0⟩, ⟨.smallImmediate, -64⟩, ⟨.offsetIndirectMp, 64, 0⟩⟩]
    let items : List DataItem := [.bytes 0 (List.replicate 16 1), .string 16 "hi"]
    (∃ bytes, each writeInstruction code [] = .ok () bytes ∧
      ∀ rest, parseCode 2 (bytes ++ rest) = .ok (code.map (·.asWritten)) rest) ∧
    ((∀ inst ∈ code, inst.Carried) → code.map (·.asWritten) = code) ∧
    ∃ bytes, writeData items [] = .ok () bytes ∧
      ∀ rest, parseData (bytes ++ rest) = .ok items rest := by
  refine sections_inverted rfl ?_ ?_
  · decide
  · intro item hitem
    rcases List.mem_cons.mp hitem with rfl | hitem
    · exact ⟨⟨rfl, by decide⟩, by decide, by decide⟩
    · cases List.mem_singleton.mp hitem
      exact ⟨⟨rfl, by decide⟩, by decide, by decide⟩

/-- A register of an operand that is not there is not written, and an item whose offset is past
the range has no encoding. -/
theorem absent_operand_not_read_back :
    (let inst : Instruction := ⟨.exit, ⟨.none, 5, 0⟩, .unused, .unused⟩
     inst.InRange ∧ ∃ bytes, each writeInstruction [inst] [] = .ok () bytes ∧
       parseCode 1 bytes = .ok [⟨.exit, .unused, .unused, .unused⟩] []) ∧
    writeData [.bytes 0x20000000 []] [] = .error (.operandOutOfRange 0x20000000) [0x10, 0] :=
  ⟨⟨by decide, _, rfl, rfl⟩, rfl⟩

end Limbo
end RiceVM
