import RiceVM.Limbo.Writer

/-!
Reading back what the writer wrote. The format does not carry everything a module holds: a
written module is unsigned, its operands have no registers that their modes do not use, the
pointers of its types are counted again, and the cases of its handlers end with the wildcard.
-/
namespace RiceVM
open Exec Loader

/-! A module as the format carries it. -/

def AddressMode.asWritten : AddressMode → AddressMode
  | .reserved1 | .reserved2 => .none
  | mode => mode

def Operand.asWritten (op : Operand) : Operand :=
  match op.mode with
  | .offsetIndirectMp | .offsetIndirectFp | .immediate => { op with register2 := 0 }
  | .offsetDoubleIndirectMp | .offsetDoubleIndirectFp => op
  | _ => .unused

def MiddleOperand.asWritten (mid : MiddleOperand) : MiddleOperand :=
  match mid.mode with
  | .none => .unused
  | _ => mid

def Instruction.asWritten (inst : Instruction) : Instruction :=
  { inst with
    source := inst.source.asWritten
    middle := inst.middle.asWritten
    destination := inst.destination.asWritten }

def TypeDescriptor.asWritten (td : TypeDescriptor) : TypeDescriptor :=
  { td with pointerCount := countPointers td.pointerMap }

def ExceptionCase.asWritten (case : ExceptionCase) : ExceptionCase :=
  { case with name := case.name.filter (!·.isEmpty) }

def Handler.asWritten (h : Handler) : Handler :=
  { h with
    typeDescriptor := h.typeDescriptor.filter (· ≠ -1)
    cases := (h.cases.filter (·.name.isSome)).map (·.asWritten) ++
      [⟨none, ((h.cases.find? (·.name.isNone)).map (·.pc)).getD (-1)⟩] }

def Header.asWritten (h : Header) : Header := { h with magic := XMAGIC, signature := [] }

def Module.asWritten (m : Module) : Module :=
  { m with
    header := m.header.asWritten
    code := m.code.map (·.asWritten)
    types := m.types.map (·.asWritten)
    handlers := m.handlers.map (·.asWritten) }

namespace Limbo

theorem reads_wordBytes (w : Word) (part : String) : Reads (readWordBe part) (wordBytes w) w := by
  have hw : (((w >>> 24).setWidth 8).setWidth 32 <<< 24) ||| (((w >>> 16).setWidth 8).setWidth 32 <<< 16) |||
      (((w >>> 8).setWidth 8).setWidth 32 <<< 8) ||| (w.setWidth 8).setWidth 32 = w := by
    ext i hi
    interval_cases i <;> simp
  have hreads : Reads (readWordBe part) (wordBytes w) _ :=
    .bind (.next _ _) (.bind (.next _ _) (.bind (.next _ _) (.bind (.next _ _) (.pure _))))
  rw [hw] at hreads
  exact hreads

theorem reads_bigBytes (b : Big) : Reads readBig (bigBytes b) b := by
  have hb : (b >>> 32).setWidth 32 ++ b.setWidth 32 = b := by
    ext i hi
    rw [BitVec.getElem_append]
    split
    · rw [BitVec.getElem_setWidth, BitVec.getLsbD_eq_getElem]
    · rw [BitVec.getElem_setWidth, BitVec.getLsbD_ushiftRight, Nat.add_sub_cancel' (by omega),
        BitVec.getLsbD_eq_getElem]
  have hreads : Reads readBig (bigBytes b) _ :=
    .bind (reads_wordBytes _ _) (.bind (reads_wordBytes _ _) (.pure _))
  rw [hb] at hreads
  exact hreads

theorem codes_writeCString {s : String} (part : String) (hs : '\x00' ∉ s.toList) :
    Codes (writeCString s) (readCString part) s := .emit (reads_readCString hs)

theorem codes_count {n : Nat} (part : String) (hn : n < 2 ^ 31) :
    Codes (writeOp (.ofUsize n)) (readCount part) n := by
  refine (codes_writeOp _ part).andThen ?_
  rw [checkedCount, Word.toUsize?, if_neg (by rw [Word.msb_ofUsize hn]; decide)]
  rw [Word.toNat_ofUsize (by omega)]
  exact .pure n

theorem codes_header (h : Header) : Codes (writeHeader h) parseHeader h.asWritten := by
  refine .bind (codes_writeOp _ _) (.before (.pure []) ?_)
  iterate 7 refine .bind (codes_writeOp _ _) ?_
  exact (codes_writeOp _ _).andThen (.pure _)

theorem opcodeOf_opcodeByte (op : Opcode) : opcodeOf (opcodeByte op) = some op := by
  cases op <;> rfl

theorem addressByte (mid : MiddleMode) (src dst : AddressMode) :
    let byte := encodeMidMode mid <<< 6 ||| encodeAddrMode src <<< 3 ||| encodeAddrMode dst
    middleMode ((byte >>> 6) &&& 0x03) = mid ∧
      addressMode ((byte >>> 3) &&& 0x07) = some src.asWritten ∧
      addressMode (byte &&& 0x07) = some dst.asWritten := by
  cases mid <;> cases src <;> cases dst <;> exact ⟨rfl, rfl, rfl⟩

theorem codes_middleOperand (mid : MiddleOperand) {bits : Byte}
    (hbits : middleMode bits = mid.mode) :
    Codes (writeMiddleOperand mid) (parseMiddle bits) mid.asWritten := by
  obtain ⟨mode, register1⟩ := mid
  unfold writeMiddleOperand parseMiddle MiddleOperand.asWritten
  rw [hbits]
  cases mode with
  | none => exact .pure _
  | smallImmediate | smallOffsetFp | smallOffsetMp => exact (codes_writeOp _ _).andThen (.pure _)

theorem codes_operand (op : Operand) {bits : Byte}
    (hbits : addressMode bits = some op.mode.asWritten) :
    Codes (writeOperand op) (parseSrcDstOperand bits) op.asWritten := by
  obtain ⟨mode, register1, register2⟩ := op
  unfold writeOperand parseSrcDstOperand Operand.asWritten
  rw [hbits]
  cases mode with
  | none | reserved1 | reserved2 => exact .pure _
  | offsetIndirectMp | offsetIndirectFp | immediate =>
      exact (codes_writeOp _ _).andThen (Reads.bind (.pure 0) (.pure _))
  | offsetDoubleIndirectMp | offsetDoubleIndirectFp =>
      exact .bind (codes_writeOp _ _) ((codes_writeOp _ _).andThen (.pure _))

theorem codes_instruction (inst : Instruction) :
    Codes (writeInstruction inst) parseInstruction inst.asWritten := by
  obtain ⟨hmid, hsrc, hdst⟩ :=
    addressByte inst.middle.mode inst.source.mode inst.destination.mode
  refine .bind (.emit (.next _ _)) (.before (a := inst.opcode) ?_ ?_)
  · rw [opcodeOf_opcodeByte]
    exact .pure _
  · refine .bind (.emit (.next _ _)) (.bind (codes_middleOperand _ hmid) ?_)
    exact .bind (codes_operand _ hsrc) ((codes_operand _ hdst).andThen (.pure _))

theorem codes_type (td : TypeDescriptor) (hmap : td.pointerMap.length < 2 ^ 31) :
    Codes (writeType td) parseType td.asWritten := by
  refine .bind (codes_writeOp _ _) (.bind (codes_writeOp _ _) (.bind (codes_count _ hmap) ?_))
  exact (Codes.emit (.take _ _)).andThen (.pure _)

/-! The data section. -/

/-- A number of at most fifteen below a type in a code. -/
theorem itemCode (itemType count : Fin 16) :
    let code : Byte := BitVec.ofNat 8 itemType <<< 4 ||| BitVec.ofNat 8 count
    code >>> 4 = BitVec.ofNat 8 itemType ∧ (code &&& 0x0F).toNat = count := by
  revert itemType count
  decide

/-- What the writer emits for an item begins with a code that is not the terminator. -/
def CodesItem (w : Writer) (item : DataItem) : Prop :=
  ∀ buf buf', w buf = .ok () buf' →
    ∃ code ts, code ≠ 0 ∧ buf' = buf ++ code :: ts ∧ Reads (parseItem code) ts item

theorem codesItem_emit {code : Byte} {w : Writer} {item : DataItem} (hcode : code ≠ 0)
    (hw : Codes w (parseItem code) item) : CodesItem (emit [code] >>= fun _ => w) item := by
  intro buf buf' h
  obtain ⟨ts, rfl, hreads⟩ := hw (buf ++ [code]) buf' h
  exact ⟨code, ts, hcode, by rw [List.append_assoc]; rfl, hreads⟩

theorem reads_checkedOffset {offset : Word} (part : String) (hoffset : offset.msb = false) :
    Reads (checkedOffset offset part) [] offset := by
  rw [checkedOffset, if_neg (by rw [hoffset]; decide)]
  exact .pure _

/-- An item with its count in the code. -/
theorem codes_parseItem_inline {itemType count : Fin 16} (hcount : count ≠ 0) {offset : Word}
    (hoffset : offset.msb = false) {w : Writer} {item : DataItem}
    (hw : Codes w (parseValues (BitVec.ofNat 8 itemType) count offset) item) :
    Codes (writeOp offset >>= fun _ => w)
      (parseItem (BitVec.ofNat 8 itemType <<< 4 ||| BitVec.ofNat 8 count)) item := by
  obtain ⟨htype, hinline⟩ := itemCode itemType count
  unfold parseItem
  rw [htype, hinline]
  dsimp only
  have hne : count.val ≠ 0 := fun h => hcount (Fin.ext h)
  rw [if_neg hne]
  exact .before (.pure _) (.bind (codes_writeOp _ _) (.before (reads_checkedOffset _ hoffset) hw))

/-- An item with its count after the code. -/
theorem codes_parseItem_counted {itemType : Fin 16} {count : Nat} (hcount : count < 2 ^ 31)
    {offset : Word} (hoffset : offset.msb = false) {w : Writer} {item : DataItem}
    (hw : Codes w (parseValues (BitVec.ofNat 8 itemType) count offset) item) :
    Codes (writeOp (.ofUsize count) >>= fun _ => writeOp offset >>= fun _ => w)
      (parseItem (BitVec.ofNat 8 itemType <<< 4)) item := by
  obtain ⟨htype, hinline⟩ := itemCode itemType 0
  have hcode : BitVec.ofNat 8 itemType <<< 4 ||| BitVec.ofNat 8 (0 : Fin 16) =
      BitVec.ofNat 8 itemType <<< 4 := BitVec.or_zero
  rw [hcode] at htype hinline
  unfold parseItem
  rw [htype, hinline]
  exact .bind (codes_count _ hcount)
    (.bind (codes_writeOp _ _) (.before (reads_checkedOffset _ hoffset) hw))

theorem codesItem_dataHeader (itemType : Fin 16) (hpos : itemType ≠ 0) {count : Nat}
    (hcount : count < 2 ^ 31) {offset : Word} (hoffset : offset.msb = false) {w : Writer}
    {item : DataItem}
    (hw : Codes w (parseValues (BitVec.ofNat 8 itemType) count offset) item) :
    CodesItem (writeDataHeader (BitVec.ofNat 8 itemType) (.ofUsize count) offset >>= fun _ => w)
      item := by
  have hnonzero : ∀ t c : Fin 16, t ≠ 0 → BitVec.ofNat 8 t <<< 4 ||| BitVec.ofNat 8 c ≠ 0 := by
    decide
  have hint : (Word.ofUsize count).toInt = count := by
    rw [BitVec.toInt_eq_toNat_of_msb (Word.msb_ofUsize hcount), Word.toNat_ofUsize (by omega)]
  unfold writeDataHeader
  rw [bind_assoc, hint]
  split
  · next hinline =>
      obtain ⟨n, rfl⟩ : ∃ n : Fin 16, count = n := ⟨⟨count, by omega⟩, rfl⟩
      have hbyte : (Word.ofUsize n).setWidth 8 = BitVec.ofNat 8 n := by
        rw [Word.ofUsize, BitVec.setWidth_ofNat_of_le (by decide)]
      rw [hbyte]
      exact codesItem_emit (hnonzero _ _ hpos) (codes_parseItem_inline
        (by rintro rfl; exact absurd hinline.1 (by decide)) hoffset hw)
  · rw [bind_assoc]
    refine codesItem_emit ?_ (codes_parseItem_counted hcount hoffset hw)
    have := hnonzero itemType 0 hpos
    rwa [show BitVec.ofNat 8 itemType <<< 4 ||| BitVec.ofNat 8 (0 : Fin 16) =
      BitVec.ofNat 8 itemType <<< 4 from BitVec.or_zero] at this

theorem codes_words (ws : List Word) :
    Codes (each (emit <| wordBytes ·) ws : Writer) (times (readWordBe "data") ws.length) ws := by
  have h := Codes.each (g := id) fun w (_ : w ∈ ws) =>
    (Codes.emit (reads_wordBytes w "data") : Codes (emit (wordBytes w) : Writer) _ _)
  rwa [List.map_id] at h

theorem codes_bigs (bs : List Big) :
    Codes (each (emit <| bigBytes ·) bs : Writer) (times readBig bs.length) bs := by
  have h := Codes.each (g := id) fun b (_ : b ∈ bs) =>
    (Codes.emit (reads_bigBytes b) : Codes (emit (bigBytes b) : Writer) _ _)
  rwa [List.map_id] at h

end Limbo

/-- What the loader asks of a data item: an offset that is not negative, and a count. -/
def DataItem.Encodable : DataItem → Prop
  | .bytes offset values => offset.msb = false ∧ values.length < 2 ^ 31
  | .words offset values => offset.msb = false ∧ values.length < 2 ^ 31
  | .bigs offset values => offset.msb = false ∧ values.length < 2 ^ 31
  | .reals offset values => offset.msb = false ∧ values.length < 2 ^ 31
  | .string offset value => offset.msb = false ∧ (Utf8.asBytes value).length < 2 ^ 31
  | .array offset _ _ => offset.msb = false
  | .setArray offset _ => offset.msb = false
  | .restoreBase => True

namespace Limbo

theorem codesItem_writeDataItem {item : DataItem} (h : item.Encodable) :
    CodesItem (writeDataItem item) item := by
  cases item with
  | bytes offset values =>
      exact codesItem_dataHeader 1 (by decide) h.2 h.1
        ((Codes.emit (.take _ _)).andThen (.pure _))
  | words offset values =>
      exact codesItem_dataHeader 2 (by decide) h.2 h.1
        ((codes_words values).andThen (.pure _))
  | string offset value =>
      refine codesItem_dataHeader 3 (by decide) h.2 h.1
        ((Codes.emit (.take _ _)).andThen ?_)
      rw [Utf8.fromLossy_asBytes]
      exact .pure _
  | reals offset values =>
      exact codesItem_dataHeader 4 (by decide) h.2 h.1
        ((codes_bigs values).andThen (.pure _))
  | array offset elementType length =>
      refine codesItem_emit (by decide) (.before (.pure 1) ?_)
      refine .bind (codes_writeOp _ _) (.before (reads_checkedOffset _ h) ?_)
      exact .bind (.emit (reads_wordBytes _ _))
        ((Codes.emit (reads_wordBytes _ _)).andThen (.pure _))
  | setArray offset index =>
      refine codesItem_emit (by decide) (.before (.pure 1) ?_)
      refine .bind (codes_writeOp _ _) (.before (reads_checkedOffset _ h) ?_)
      exact (Codes.emit (reads_wordBytes _ _)).andThen (.pure _)
  | restoreBase =>
      refine codesItem_emit (by decide) (.before (.pure 1) ((codes_writeOp _ _).andThen ?_))
      exact Reads.bind (reads_checkedOffset _ rfl) (.pure _)
  | bigs offset values =>
      exact codesItem_dataHeader 8 (by decide) h.2 h.1
        ((codes_bigs values).andThen (.pure _))

/-- One turn of the loader for each item and one for the terminator; an item takes a byte. -/
theorem codes_items {items : List DataItem} (h : ∀ item ∈ items, item.Encodable) (fuel : Nat)
    (hfuel : items.length < fuel) {buf buf' : List Byte} (hw : writeData items buf = .ok () buf') :
    ∃ ts, buf' = buf ++ ts ∧ items.length < ts.length ∧ Reads (parseItems fuel) ts items := by
  induction items generalizing fuel buf with
  | nil =>
      obtain ⟨fuel, rfl⟩ : ∃ k, fuel = k + 1 := ⟨fuel - 1, by omega⟩
      cases hw
      exact ⟨[0], rfl, Nat.zero_lt_one, fun rest => rfl⟩
  | cons item items ih =>
      obtain ⟨hitem, hitems⟩ := List.forall_mem_cons.mp h
      rw [List.length_cons] at hfuel ⊢
      obtain ⟨fuel, rfl⟩ : ∃ k, fuel = k + 1 := ⟨fuel - 1, by omega⟩
      obtain ⟨_, u, hfirst, hrest⟩ := bind_eq_ok.mp hw
      obtain ⟨_, u', hfirst, htail⟩ := bind_eq_ok.mp hfirst
      obtain ⟨code, ts, hcode, rfl, hreads⟩ := codesItem_writeDataItem hitem buf u' hfirst
      obtain ⟨ts', rfl, hlength, hreads'⟩ := ih hitems fuel (by omega)
        (bind_eq_ok.mpr ⟨(), u, htail, hrest⟩)
      refine ⟨code :: (ts ++ ts'), by simp only [List.append_assoc, List.cons_append], ?_, ?_⟩
      · rw [List.length_cons, List.length_append]
        omega
      · refine Reads.bind (.next _ code) (?_ : Reads _ (ts ++ ts') _)
        rw [if_neg hcode]
        have htail : Reads (do let items ← parseItems fuel; return item :: items)
            (ts' ++ []) (item :: items) := hreads'.bind (.pure _)
        rw [List.append_nil] at htail
        exact hreads.bind htail

theorem codes_data {items : List DataItem} (h : ∀ item ∈ items, item.Encodable) :
    Codes (writeData items) parseData items := by
  intro buf buf' hw
  obtain ⟨ts, hts, hlength, _⟩ := codes_items h _ (Nat.lt_succ_self _) hw
  refine ⟨ts, hts, fun rest => ?_⟩
  have hfuel : items.length < (ts ++ rest).length + 1 := by
    rw [List.length_append]
    omega
  obtain ⟨ts', hts', _, hreads⟩ := codes_items h _ hfuel hw
  obtain rfl : ts' = ts := List.append_cancel_left (hts'.symm.trans hts)
  rw [parseData, bind_ok (get_apply _)]
  exact hreads rest

/-! The sections with counts in the header, and the optional sections. -/

theorem reads_checkedCount {count : Word} {n : Nat} (part : String) (h : count.toInt = n) :
    Reads (checkedCount count part) [] n := by
  have hmsb : count.msb = false := by
    rw [BitVec.msb_eq_toInt, h]
    exact decide_eq_false (by omega)
  rw [BitVec.toInt_eq_toNat_of_msb hmsb] at h
  obtain rfl : count.toNat = n := by omega
  rw [checkedCount, Word.toUsize?, if_neg (by rw [hmsb]; decide)]
  exact .pure _

theorem codes_code {code : List Instruction} {count : Word} (h : count.toInt = code.length) :
    Codes (each writeInstruction code) (parseCode count) (code.map (·.asWritten)) :=
  .before (reads_checkedCount _ h) (.each fun inst _ => codes_instruction inst)

theorem codes_types {types : List TypeDescriptor} {count : Word} (h : count.toInt = types.length)
    (hmaps : ∀ td ∈ types, td.pointerMap.length < 2 ^ 31) :
    Codes (each writeType types) (parseTypes count) (types.map (·.asWritten)) :=
  .before (reads_checkedCount _ h) (.each fun td htd => codes_type td (hmaps td htd))

theorem codes_exports {exports : List ExportEntry} {count : Word}
    (h : count.toInt = exports.length) (hnames : ∀ e ∈ exports, '\x00' ∉ e.name.toList) :
    Codes (each writeExport exports) (parseExports count) exports := by
  have hexport : ∀ e ∈ exports, Codes (writeExport e) parseExport (id e) := fun e he =>
    .bind (codes_writeOp _ _) (.bind (codes_writeOp _ _) (.bind (.emit (reads_wordBytes _ _))
      ((codes_writeCString _ (hnames e he)).andThen (.pure _))))
  have hexports := Codes.each hexport
  rw [List.map_id] at hexports
  exact .before (reads_checkedCount _ h) hexports

theorem codes_importModule {importMod : ImportModule} (hcount : importMod.functions.length < 2 ^ 31)
    (hnames : ∀ f ∈ importMod.functions, '\x00' ∉ f.name.toList) :
    Codes (writeImportModule importMod) parseImportModule importMod := by
  have hfunc : ∀ f ∈ importMod.functions, Codes (writeImport f) parseImport (id f) :=
    fun f hf => .bind (.emit (reads_wordBytes _ _))
      ((codes_writeCString _ (hnames f hf)).andThen (.pure _))
  have hfuncs := Codes.each hfunc
  rw [List.map_id] at hfuncs
  exact .bind (codes_count _ hcount) (hfuncs.andThen (.pure _))

theorem reads_expectEnd (part : String) : Reads (expectEnd part) [0] () :=
  .bind (.next _ _) (.pure ())

/-- The import section of a module that has imports. -/
theorem codes_imports {imports : List ImportModule} (hne : imports ≠ [])
    (hcount : imports.length < 2 ^ 31)
    (hmodules : ∀ i ∈ imports, i.functions.length < 2 ^ 31 ∧
      ∀ f ∈ i.functions, '\x00' ∉ f.name.toList) :
    Codes (writeImports imports) parseImports imports := by
  have himports := Codes.each (g := id) fun i hi =>
    codes_importModule (hmodules i hi).1 (hmodules i hi).2
  rw [List.map_id] at himports
  unfold writeImports
  rw [if_neg (by simpa using hne)]
  exact .bind (codes_count _ hcount) (.bind himports
    ((Codes.emit (reads_expectEnd _)).andThen (.pure _)))

theorem codes_case {case : ExceptionCase} (hnamed : case.name.isSome)
    (hname : ∀ name ∈ case.name, '\x00' ∉ name.toList) :
    Codes (writeCase case) parseCase case.asWritten := by
  obtain ⟨_ | name, pc⟩ := case
  · cases hnamed
  refine .bind (codes_writeCString _ (hname name rfl)) ((codes_writeOp _ _).andThen ?_)
  have hasWritten : (⟨some name, pc⟩ : ExceptionCase).asWritten =
      { name := if name.isEmpty then none else some name, pc } := by
    unfold ExceptionCase.asWritten
    cases h : name.isEmpty <;> simp [Option.filter, h]
  rw [hasWritten]
  exact .pure _

end Limbo

/-- A handler the format can hold: at most `0xFFFF` named cases, no name with a zero byte. -/
structure Handler.Encodable (h : Handler) : Prop where
  count : (h.cases.filter (·.name.isSome)).length < 2 ^ 16
  names : ∀ c ∈ h.cases, ∀ name ∈ c.name, '\x00' ∉ name.toList

namespace Limbo

theorem toNat_packed {n : Nat} (hn : n < 2 ^ 16) :
    ((Word.ofUsize n &&& 0xFFFF) &&& 0xFFFF).toNat = n := by
  rw [BitVec.and_assoc, BitVec.and_self, BitVec.toNat_and, Word.toNat_ofUsize (by omega)]
  exact (Nat.and_two_pow_sub_one_eq_mod n 16).trans (Nat.mod_eq_of_lt hn)

/-- A type descriptor that is not there is written as -1. -/
theorem typeDescriptor_asWritten (td : Option (BitVec 32)) :
    (if td.getD (-1) = -1 then none else some (td.getD (-1))) = td.filter (· ≠ -1) := by
  cases td with
  | none => rfl
  | some td => by_cases h : td = -1 <;> simp [Option.filter, h]

theorem codes_handler {h : Handler} (hh : h.Encodable) :
    Codes (writeHandler h) parseHandler h.asWritten := by
  have hcases := Codes.each (p := parseCase) (g := fun c : ExceptionCase => c.asWritten)
    fun c (hc : c ∈ h.cases.filter (·.name.isSome)) =>
      codes_case (List.mem_filter.mp hc).2 (hh.names c (List.mem_filter.mp hc).1)
  refine .bind (codes_writeOp _ _) (.bind (codes_writeOp _ _) (.bind (codes_writeOp _ _) ?_))
  refine .bind (codes_writeOp _ _) (.bind (codes_writeOp _ _) ?_)
  rw [toNat_packed hh.count]
  refine .bind hcases ((codes_writeOp _ _).andThen ?_)
  rw [typeDescriptor_asWritten]
  exact .pure h.asWritten

theorem codes_handlers {handlers : List Handler} (hcount : handlers.length < 2 ^ 31)
    (hhandlers : ∀ h ∈ handlers, h.Encodable) :
    Codes (writeHandlers handlers) parseHandlers (handlers.map (·.asWritten)) :=
  .bind (codes_count _ hcount) (.bind (.each fun h hh => codes_handler (hhandlers h hh))
    ((Codes.emit (reads_expectEnd _)).andThen (.pure _)))

end Limbo

/-- A module the format can hold: the counts of its header are the lengths of its sections, its
flags announce the optional sections, no name has a zero byte, the lengths of its lists are
counts, and what is written passes the checks of the loader. -/
structure Module.Encodable (m : Module) : Prop where
  codeSize : m.header.codeSize.toInt = m.code.length
  typeSize : m.header.typeSize.toInt = m.types.length
  exportSize : m.header.exportSize.toInt = m.exports.length
  hasImport : m.header.hasFlag .HAS_IMPORT ↔ m.imports ≠ []
  hasHandler : m.header.hasFlag .HAS_HANDLER ↔ m.handlers ≠ []
  name : '\x00' ∉ m.name.toList
  exports : ∀ e ∈ m.exports, '\x00' ∉ e.name.toList
  types : ∀ td ∈ m.types, td.pointerMap.length < 2 ^ 31
  data : ∀ item ∈ m.data, item.Encodable
  importCount : m.imports.length < 2 ^ 31
  imports : ∀ i ∈ m.imports, i.functions.length < 2 ^ 31 ∧
    ∀ f ∈ i.functions, '\x00' ∉ f.name.toList
  handlerCount : m.handlers.length < 2 ^ 31
  handlers : ∀ h ∈ m.handlers, h.Encodable
  valid : validateModule m.asWritten = .ok ()

namespace Limbo

/-- The part of the loader after the sections of every module, on a written module. -/
theorem reads_checked {m module : Module} (hm : m.Encodable) (hmodule : module = m.asWritten) :
    Reads (do
      ofExcept (validateModule module)
      return module : Reader Module) [] m.asWritten := by
  rw [hmodule, hm.valid]
  exact .bind (.pure ()) (.pure _)

theorem codes_optionalHandlers {m : Module} (hm : m.Encodable) :
    Codes (if m.header.hasFlag .HAS_HANDLER then writeHandlers m.handlers else pure ())
      (if m.header.hasFlag .HAS_HANDLER then parseHandlers else pure [])
      m.asWritten.handlers := by
  split
  · exact codes_handlers hm.handlerCount hm.handlers
  · next hflag =>
      have hnone : m.handlers = [] := by
        by_contra hne
        exact hflag (hm.hasHandler.mpr hne)
      have hwritten : m.asWritten.handlers = [] := by
        simp only [Module.asWritten, hnone, List.map_nil]
      rw [hwritten]
      exact .pure []

theorem leads_optional {m : Module} (hm : m.Encodable)
    (hsections : m.imports ≠ [] ∨ m.handlers = []) :
    Leads (do
        writeImports m.imports
        if m.header.hasFlag .HAS_HANDLER then writeHandlers m.handlers else pure ())
      (do
        let imports ← (if m.header.hasFlag .HAS_IMPORT then parseImports else pure [])
        let handlers ← (if m.header.hasFlag .HAS_HANDLER then parseHandlers else pure [])
        let module : Module := { m.asWritten with imports, handlers }
        ofExcept (validateModule module)
        return module)
      m.asWritten := by
  by_cases himports : m.imports = []
  · -- the count of no imports is written and stays unread
    have hhandlers : m.handlers = [] := hsections.resolve_left (not_not_intro himports)
    have hnoHandler : ¬ m.header.hasFlag .HAS_HANDLER := fun h => hm.hasHandler.mp h hhandlers
    have hnoImport : ¬ m.header.hasFlag .HAS_IMPORT := fun h => hm.hasImport.mp h himports
    have hwritten : ({ m.asWritten with imports := [], handlers := [] } : Module) = m.asWritten := by
      simp only [Module.asWritten, himports, hhandlers, List.map_nil]
    have hcount : (do writeImports []; pure ()) = (emit [0] : Writer) := by
      funext buf
      rfl
    rw [himports, if_neg hnoHandler, if_neg hnoHandler, if_neg hnoImport, hcount]
    exact .emit (.bind (.pure []) (.bind (.pure []) (reads_checked hm hwritten))) [0]
  · rw [if_pos (hm.hasImport.mpr himports)]
    refine .bind (codes_imports himports hm.importCount hm.imports) ?_
    exact ((codes_optionalHandlers hm).andThen (reads_checked hm rfl)).leads

/-- What the writer writes of a module the loader reads back, provided that the module has
imports or has no handlers. -/
theorem load_writeDis {m : Module} (hm : m.Encodable) (hsections : m.imports ≠ [] ∨ m.handlers = [])
    {bytes : List Byte} (hw : writeDis m [] = .ok () bytes) :
    load bytes = some (.ok m.asWritten) := by
  have hleads : Leads (writeDis m) parseModule m.asWritten := by
    refine .bind (codes_header _) (.bind (codes_code hm.codeSize) ?_)
    refine .bind (codes_types hm.typeSize hm.types) (.bind (codes_data hm.data) ?_)
    refine .bind (codes_writeCString _ hm.name) ?_
    exact .bind (codes_exports hm.exportSize hm.exports) (leads_optional hm hsections)
  obtain ⟨ts, rest, hbytes, hreads⟩ := hleads [] bytes hw
  have hparse : parseModule bytes = .ok m.asWritten rest := by
    rw [hbytes]
    exact hreads rest
  have hne : bytes.isEmpty = false := by
    cases bytes with
    | nil => cases hparse
    | cons => rfl
  rw [load, hne, if_neg (by decide), hparse]

/-- A module with something in every section. -/
def fullModule : Module where
  header :=
    { magic := XMAGIC, signature := [], runtimeFlags := RuntimeFlags.HAS_IMPORT ||| RuntimeFlags.HAS_HANDLER
      stackExtent := 0, codeSize := 2, dataSize := 8, typeSize := 1, exportSize := 1
      entryPc := 0, entryType := 0 }
  code :=
    [⟨.movw, ⟨.immediate, -100, 0⟩, .unused, ⟨.offsetDoubleIndirectFp, 8, 4⟩⟩,
      ⟨.exit, .unused, .unused, .unused⟩]
  types := [⟨0, 40, [0x80], 1⟩]
  data := [.words 0 [1, 2], .string 4 "hi"]
  name := "M"
  exports := [⟨0, 0, 7, "init"⟩]
  imports := [⟨[⟨9, "print"⟩]⟩]
  handlers := [⟨4, 0, 1, some 0, [⟨some "e", 1⟩, ⟨none, -1⟩]⟩]

theorem fullModule_encodable : fullModule.Encodable where
  codeSize := rfl
  typeSize := rfl
  exportSize := rfl
  hasImport := by decide
  hasHandler := by decide
  name := by decide
  exports := by decide
  types := by decide
  data := by
    intro item hitem
    rcases List.mem_cons.mp hitem with rfl | hitem
    · exact ⟨rfl, by decide⟩
    · cases List.mem_singleton.mp hitem
      exact ⟨rfl, by decide⟩
  importCount := by decide
  imports := by decide
  handlerCount := by decide
  handlers := by
    intro h hh
    cases List.mem_singleton.mp hh
    exact ⟨by decide, by decide⟩
  valid := rfl

theorem load_writeDis_fullModule : ∃ bytes, writeDis fullModule [] = .ok () bytes ∧
    load bytes = some (.ok fullModule) :=
  ⟨_, rfl, load_writeDis fullModule_encodable (.inl (by decide)) rfl⟩

/-- A signed module with no code. -/
def signedModule : Module where
  header :=
    { magic := SMAGIC, signature := [1, 2, 3], runtimeFlags := 0, stackExtent := 0, codeSize := 0
      dataSize := 0, typeSize := 0, exportSize := 0, entryPc := -1, entryType := -1 }
  code := []
  types := []
  data := []
  name := "S"
  exports := []
  imports := []
  handlers := []

theorem signedModule_encodable : signedModule.Encodable where
  codeSize := rfl
  typeSize := rfl
  exportSize := rfl
  hasImport := by decide
  hasHandler := by decide
  name := by decide
  exports := by decide
  types := by decide
  data := nofun
  importCount := by decide
  imports := by decide
  handlerCount := by decide
  handlers := nofun
  valid := rfl

/-- A signed module is valid and is written; it is read back without its signature. -/
theorem signed_module_changes : signedModule.Encodable ∧
    validateModule signedModule = .ok () ∧
    ∃ bytes, writeDis signedModule [] = .ok () bytes ∧
      ∃ m, load bytes = some (.ok m) ∧ m ≠ signedModule :=
  ⟨signedModule_encodable, rfl, _, rfl, _, rfl, by decide⟩

end Limbo
end RiceVM
