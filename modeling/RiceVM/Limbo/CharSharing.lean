import RiceVM.Limbo.CharAssign
import RiceVM.Interpreter
import RiceVM.Results
import RiceVM.Ops.Text

/-!
What `s[i] = c` leaves in `s` and in whatever shares its string. The words that hold a string are
cells; the code of the assignment writes one of them, the temporary it fetches the string into.
-/
namespace RiceVM.Limbo.CharAssign
open Exec Memory Ops Heap

/-! ### Cells -/

/-- A word that may hold a string: in the frames, the data of a module or an object, or in the
frames or the data of a thread that waits. -/
inductive Cell where
  | frame (off : Nat)
  | data (moduleIdx off : Nat)
  | object (id : HeapId) (off : Nat)
  | threadFrame (thread off : Nat)
  | threadData (thread off : Nat)
  deriving DecidableEq, Repr

namespace Cell

def word (vm : VmState) : Cell → Word
  | .frame off => readWord vm.frames.data off
  | .data moduleIdx off => ((vm.moduleMp moduleIdx).map (readWord · off)).getD 0
  | .object id off => ((vm.heap.words? id).map (readWord · off)).getD 0
  | .threadFrame thread off => ((vm.threadQueue[thread]?).map (readWord ·.frames.data off)).getD 0
  | .threadData thread off => ((vm.threadQueue[thread]?).map (readWord ·.mp off)).getD 0

def text (vm : VmState) (cell : Cell) : String := vm.heap.text (cell.word vm)

/-- The cell has no byte in common with a word of the frames. -/
def Apart (slot : Nat) : Cell → Prop
  | .frame off => off + 4 ≤ slot ∨ slot + 4 ≤ off
  | _ => True

end Cell

/-! ### The code's run -/

def perform (env : Env) (nested : Nested) (inst : Instruction) : VM Unit :=
  match inst.opcode with
  | .insc => opInsc
  | .indc => opIndc
  | _ => dispatch env nested inst

def step (env : Env) (nested : Nested) (inst : Instruction) : VM Unit := do
  begin inst
  perform env nested inst
  modify fun vm => { vm with pc := vm.nextPc }

namespace Site

variable (site : Site)

def run (env : Env) (nested : Nested) : VM Unit := do
  step env nested site.fetch
  step env nested site.insc

/-- The words for the index, the string and the character. -/
def idxSlot (vm : VmState) : Nat := vm.frames.currentDataOffset + site.next
def strSlot (vm : VmState) : Nat := site.idxSlot vm + 4
def valSlot (vm : VmState) : Nat := site.idxSlot vm + 8

/-- The references to the string when `insc` runs. `movp` takes one and releases that of the
string which the temporary held before; `movw` takes none. -/
def refCount (vm : VmState) (p : HeapId) : Nat :=
  let count := vm.heap.refs p
  if site.op = .movp ∧ readWord vm.frames.data (site.strSlot vm) ≠ p then count + 1 else count

end Site

/-- The parts of `s[i] = c` are evaluated, and `home` is the place of `s`. What the fetch reads is
`p`, the word at that place or, where a field's offset was estimated, any other; and for an element of
an array that is taken for a string, the array. -/
structure Ready (vm : VmState) (site : Site) (home : Cell) (p : Word) (i : Nat) (c : Char) :
    Prop where
  fits : site.idxSlot vm + 12 ≤ vm.frames.data.length
  below : site.idxSlot vm + 12 ≤ mpBase
  source : ∃ target, resolveOperand site.source vm.frames.currentDataOffset vm.frames.data vm.mp
      vm.heapRefs = .ok target ∧ vm.readWordAt target site.source.register1 = p
  middle : ∃ target, resolveMiddle site.middle vm.frames.currentDataOffset = .ok target
  own : site.op = .movp → p = home.word vm
  array : site.op = .indc → vm.heap.getString p = none
  /-- The compiler writes no handlers. -/
  compiled : vm.handlers = []
  apart : home.Apart (site.strSlot vm)
  index : readWord vm.frames.data (site.idxSlot vm) = Word.ofUsize i
  char : readWord vm.frames.data (site.valSlot vm) = c.val.toBitVec
  index_le : i ≤ (home.text vm).length
  short : (home.text vm).length < 2 ^ 31
  string : home.word vm = nil ∨ ∃ obj s, vm.heap.get (home.word vm) = some obj ∧
    obj.data = .str s ∧ 0 < obj.refCount.toNat
  /-- The temporary is new, or has the string that this code left in it before. -/
  temp : vm.heap.StringAt (readWord vm.frames.data (site.strSlot vm))
  room : vm.heap.nextId < vm.heap.nextId + 1
  counted : vm.heap.refs (home.word vm) < maxRefs

/-- `s` has the character, and what shared its string is as it was. -/
structure CharAssigned (vm vm' : VmState) (home : Cell) (slot i : Nat) (c : Char) : Prop where
  updated : home.text vm' = withChar (home.text vm) i c
  others : ∀ cell, cell ≠ home → cell.Apart slot → cell.word vm = home.word vm →
    cell.text vm' = cell.text vm

/-- The string is fetched, and there is nothing to change, or it has one holder and the code changes
it in place. What is fetched from another place may be another string, if there is nothing to
change. -/
structure Unshared (vm : VmState) (site : Site) (home : Cell) (p : Word) (i : Nat) (c : Char) :
    Prop where
  moved : site.op ≠ .indc
  not_nil : home.word vm ≠ nil
  held : (home.text vm).toList[i]? = some c ∧ TakesChar vm.heap p ∨
    p = home.word vm ∧ site.refCount vm (home.word vm) ≤ 1 ∧
      ∀ cell, cell ≠ home → cell.Apart (site.strSlot vm) → cell.word vm ≠ home.word vm

/-! ### One step -/

/-- A word of the frames is written and the heap changes, and nothing else that holds words. -/
structure Moved (vm vm' : VmState) (slot : Nat) (h : Heap) : Prop where
  length : vm'.frames.data.length = vm.frames.data.length
  words : ∀ off, off + 4 ≤ slot ∨ slot + 4 ≤ off →
    readWord vm'.frames.data off = readWord vm.frames.data off
  base : vm'.frames.currentDataOffset = vm.frames.currentDataOffset
  heap : vm'.heap = h
  modules : ∀ idx, vm'.moduleMp idx = vm.moduleMp idx
  threads : vm'.threadQueue = vm.threadQueue

theorem Moved.trans {vm vm' vm'' : VmState} {slot : Nat} {h h' : Heap}
    (a : Moved vm vm' slot h) (b : Moved vm' vm'' slot h') : Moved vm vm'' slot h' where
  length := b.length.trans a.length
  words off hoff := (b.words off hoff).trans (a.words off hoff)
  base := b.base.trans a.base
  heap := b.heap
  modules idx := (b.modules idx).trans (a.modules idx)
  threads := b.threads.trans a.threads

theorem Moved.word {vm vm' : VmState} {slot : Nat} {h : Heap}
    (hm : Moved vm vm' slot h) (hwords : SameWords vm.heap h) {cell : Cell}
    (hapart : cell.Apart slot) : cell.word vm' = cell.word vm := by
  cases cell with
  | frame off => exact hm.words off hapart
  | data moduleIdx off => rw [Cell.word, hm.modules, Cell.word]
  | object id off => rw [Cell.word, hm.heap, hwords id, Cell.word]
  | threadFrame thread off => rw [Cell.word, hm.threads, Cell.word]
  | threadData thread off => rw [Cell.word, hm.threads, Cell.word]

theorem frameAddr_ofUsize {base off : Nat} (h : base + off < mpBase) :
    frameAddr base (Word.ofUsize off) = .ok (base + off) := by
  have hbase : mpBase = 0x00800000 := rfl
  have hsmall : off < 2 ^ 31 := by omega
  have hoff : offsetOperand (Word.ofUsize off) "frame" = .ok off := by
    rw [offsetOperand, Word.toUsize?, if_neg (by rw [Word.msb_ofUsize hsmall]; exact nofun),
      Word.toNat_ofUsize (by omega)]
  simp only [frameAddr, hoff]
  exact if_pos h

theorem resolve_opFp {base off : Nat} (h : base + off < mpBase) (stack mp : List Byte)
    (refs : List (HeapId × Nat)) :
    resolveOperand (opFp off) base stack mp refs = .ok (.frame (base + off)) := by
  simp only [resolveOperand, opFp, Operand.fp, frameAddr_ofUsize h]
  rfl

theorem resolve_midFp {base off : Nat} (h : base + off < mpBase) :
    resolveMiddle (midFp off) base = .ok (.frame (base + off)) := by
  simp only [resolveMiddle, midFp, MiddleOperand.fp, frameAddr_ofUsize h]
  rfl

section
variable {vm vm' : VmState} {site : Site} {home : Cell} {p : Word} {i : Nat} {c : Char}

/-- The heap after the fetch. -/
def Site.fetchedHeap (site : Site) (vm : VmState) (p : HeapId) : Heap :=
  if site.op = .movp then
    (vm.heap.addRef p).decRef (readWord vm.frames.data (site.strSlot vm))
  else vm.heap

/-- The fetch leaves the string in the temporary. -/
theorem step_fetch (env : Env) (nested : Nested) (hop : site.op = .movp ∨ site.op = .movw)
    (h : Ready vm site home p i c) :
    ∃ vm', step env nested site.fetch vm = .ok () vm' ∧
      Moved vm vm' (site.strSlot vm) (site.fetchedHeap vm p) ∧
      readWord vm'.frames.data (site.strSlot vm) = p := by
  obtain ⟨target, hsource, hread⟩ := h.source
  obtain ⟨middle, hmiddle⟩ := h.middle
  have hbelow := h.below
  have hdst : resolveOperand site.fetch.destination vm.frames.currentDataOffset vm.frames.data vm.mp
      vm.heapRefs = .ok (.frame (site.strSlot vm)) :=
    resolve_opFp (by simp only [Site.idxSlot] at hbelow; omega) _ _ _
  let u : VmState := { vm with
    src := target, mid := middle, dst := .frame (site.strSlot vm)
    immSrc := site.source.register1, immMid := site.middle.register1
    immDst := site.fetch.destination.register1, nextPc := vm.pc + 1 }
  have hbegin : begin site.fetch vm = .ok () u := begin_ok hsource hmiddle hdst
  have hsrc : u.readWordAt u.src u.immSrc = p := by
    rw [← hread]
    cases target <;> rfl
  have hfits : site.strSlot vm + 4 ≤ vm.frames.data.length := by
    have := h.fits
    simp only [Site.strSlot]
    omega
  have hwords (off : Nat) (hoff : off + 4 ≤ site.strSlot vm ∨ site.strSlot vm + 4 ≤ off) :
      readWord (writeWord vm.frames.data (site.strSlot vm) p) off =
        readWord vm.frames.data off := readWord_writeWord_disjoint _ hoff
  rw [step, bind_ok hbegin]
  rcases hop with hop | hop
  · have hperform : perform env nested site.fetch u = opMovp u := by
      simp only [perform, Site.fetch, hop, dispatch]
    have hcounted : vm.heap.refs p < maxRefs := h.own hop ▸ h.counted
    have hmove := movePtrToDst_frame (show u.dst = .frame (site.strSlot vm) from rfl) hcounted
    simp only [bind_apply, hperform, opMovp, srcPtr, srcWord_apply, hsrc, hmove]
    refine ⟨_, rfl, ⟨length_writeWord .., hwords, rfl, ?_, fun _ => rfl, rfl⟩,
      readWord_writeWord_self _ hfits⟩
    rw [Site.fetchedHeap, if_pos hop]
  · have hperform : perform env nested site.fetch u = opMovw u := by
      simp only [perform, Site.fetch, hop, dispatch]
    have hset := setDstPtr_frame (show u.dst = .frame _ from rfl) p
    simp only [bind_apply, hperform, opMovw, srcWord_apply, hsrc, setDstPtr] at hset ⊢
    rw [hset]
    refine ⟨_, rfl, ⟨length_writeWord .., hwords, rfl, ?_, fun _ => rfl, rfl⟩,
      readWord_writeWord_self _ hfits⟩
    rw [Site.fetchedHeap, if_neg (by rw [hop]; decide)]

/-- What the fetch does to the heap: it counts references. -/
theorem fetchedHeap_spec (h : Ready vm site home p i c) :
    SameWords vm.heap (site.fetchedHeap vm (home.word vm)) ∧
      (site.fetchedHeap vm (home.word vm)).nextId = vm.heap.nextId ∧
      ∀ obj, vm.heap.get (home.word vm) = some obj → 0 < obj.refCount.toNat →
        ∃ obj', (site.fetchedHeap vm (home.word vm)).get (home.word vm) = some obj' ∧
          obj'.data = obj.data ∧ obj'.refCount.toNat = site.refCount vm (home.word vm) := by
  have hroom := h.counted
  generalize home.word vm = p at hroom ⊢
  have htemp := h.temp
  unfold Site.fetchedHeap Site.refCount
  by_cases hop : site.op = .movp
  · rw [if_pos hop]
    generalize readWord vm.frames.data (site.strSlot vm) = t at htemp ⊢
    have hstr : (vm.heap.addRef p).StringAt t := stringAt_addRef htemp p
    obtain ⟨hwords, hnext, hget⟩ := decRef_string hstr
    refine ⟨(sameWords_addRef _ p).trans hwords, hnext.trans (nextId_addRef _ p),
      fun obj hobj hpos => ?_⟩
    have hcount : (obj.take 1).refCount.toNat = vm.heap.refs p + 1 := by
      rw [refs, hobj, Option.elim_some] at hroom ⊢
      rw [maxRefs] at hroom
      exact HeapObject.refCount_take (by omega)
    have hrefs : vm.heap.refs p = obj.refCount.toNat := by rw [refs, hobj, Option.elim_some]
    rw [hget, get_addRef, hobj]
    by_cases ht : t = p
    · have hheld : ¬ (site.op = .movp ∧ t ≠ p) := fun hne => hne.2 ht
      have hmore : ¬ (obj.take 1).refCount.toNat ≤ 1 := by omega
      rw [if_pos ht.symm, if_pos rfl, Option.map_some, Option.bind_some, released, if_neg hmore,
        if_neg hheld]
      refine ⟨_, rfl, rfl, ?_⟩
      rw [HeapObject.refCount_drop, hcount, Nat.add_sub_cancel]
    · have hheld : site.op = .movp ∧ t ≠ p := ⟨hop, ht⟩
      rw [if_neg (Ne.symm ht), if_pos rfl, if_pos hheld]
      exact ⟨_, rfl, rfl, hcount⟩
  · rw [if_neg hop]
    refine ⟨.refl _, rfl, fun obj hobj _ => ⟨obj, hobj, rfl, ?_⟩⟩
    have hheld : ¬ (site.op = .movp ∧ readWord vm.frames.data (site.strSlot vm) ≠ p) :=
      fun hne => hop hne.1
    rw [if_neg hheld, refs, hobj, Option.elim_some]

/-- `insc` finds the operands that were evaluated for it. -/
theorem begin_insc {heap : Heap} (h : Ready vm site home p i c)
    (hm : Moved vm vm' (site.strSlot vm) heap) :
    ∃ u, begin site.insc vm' = .ok () u ∧ u.dst = .frame (site.strSlot vm) ∧
      Moved vm u (site.strSlot vm) heap ∧
      (u.readWordAt u.mid u.immMid).asUsize = i ∧
      charOfRune (u.readWordAt u.src u.immSrc) = c ∧
      u.readWordAt u.dst u.immDst = readWord vm'.frames.data (site.strSlot vm) := by
  have hfits := h.fits
  have hbelow := h.below
  have hindex := (hm.words (site.idxSlot vm) (.inl (Nat.le_refl _))).trans h.index
  have hchar := (hm.words (site.valSlot vm) (.inr (Nat.le_refl _))).trans h.char
  simp only [Site.idxSlot] at hbelow
  have hsrc : resolveOperand site.insc.source vm'.frames.currentDataOffset vm'.frames.data vm'.mp
      vm'.heapRefs = .ok (.frame (site.valSlot vm)) := by
    rw [hm.base]
    exact resolve_opFp (by omega) _ _ _
  have hmid : resolveMiddle site.insc.middle vm'.frames.currentDataOffset =
      .ok (.frame (site.idxSlot vm)) := by
    rw [hm.base]
    exact resolve_midFp (by omega)
  have hdst : resolveOperand site.insc.destination vm'.frames.currentDataOffset vm'.frames.data
      vm'.mp vm'.heapRefs = .ok (.frame (site.strSlot vm)) := by
    rw [hm.base]
    exact resolve_opFp (by omega) _ _ _
  refine ⟨_, begin_ok hsrc hmid hdst, rfl, ⟨hm.length, hm.words, hm.base, hm.heap, hm.modules,
    hm.threads⟩, ?_, ?_, rfl⟩
  · have hi : i < 2 ^ 31 := Nat.lt_of_le_of_lt h.index_le h.short
    exact (congrArg Word.asUsize hindex).trans (Word.asUsize_ofUsize hi)
  · exact (congrArg charOfRune hchar).trans (charOfRune_val c)

theorem step_insc (env : Env) (nested : Nested) {heap : Heap} {u : VmState} {slot : Nat} (hbegin : begin site.insc vm = .ok () u)
    (hinsc : opInsc u = .ok () vm') (hm : Moved u vm' slot heap) :
    ∃ w, step env nested site.insc vm = .ok () w ∧ Moved u w slot heap := by
  refine ⟨{ vm' with pc := vm'.nextPc }, ?_, ⟨hm.length, hm.words, hm.base, hm.heap, hm.modules,
    hm.threads⟩⟩
  rw [step, bind_ok hbegin, bind_ok (show perform env nested site.insc u = _ from hinsc)]
  rfl

theorem setDstPtr_moved {u : VmState} {slot : Nat} (hdst : u.dst = .frame slot) (id : HeapId)
    (heap : Heap) : ∃ w, setDstPtr id { u with heap := heap } = .ok () w ∧ Moved u w slot heap := by
  let v : VmState := { u with heap := heap }
  have hset := setDstPtr_frame (show v.dst = .frame slot from hdst) id
  refine ⟨_, hset, length_writeWord .., fun off hoff => ?_, rfl, rfl, fun _ => rfl, rfl⟩
  exact readWord_writeWord_disjoint _ hoff

/-- `insc` ends well; the text of the string it changes is another one only if it has no other
reference. -/
theorem opInsc_ready {u : VmState} {slot : Nat} (hdst : u.dst = .frame slot)
    (hp : u.readWordAt u.dst u.immDst = p) (hroom : u.heap.nextId < u.heap.nextId + 1)
    (hi : (u.readWordAt u.mid u.immMid).asUsize = i)
    (hc : charOfRune (u.readWordAt u.src u.immSrc) = c)
    (hstring : TakesChar u.heap p) :
    ∃ w heap, opInsc u = .ok () w ∧ Moved u w slot heap ∧ SameWords u.heap heap ∧
      (∀ q, q ≠ p → (u.heap.get q).isSome → heap.get q = u.heap.get q) ∧
      ∀ obj s, u.heap.get p = some obj → obj.data = .str s →
        heap.text p = if obj.refCount.toNat ≤ 1 then replaceChar s i c else s := by
  have hfresh {h : Heap} (hnext : h.nextId = u.heap.nextId) {q : HeapId}
      (hq : (u.heap.get q).isSome) : q ≠ h.nextId := by
    rintro rfl
    rw [hnext, get_of_nextId_le (BitVec.le_refl _)] at hq
    cases hq
  rcases hstring with hnil | ⟨obj, s, hget, hs⟩
  · obtain ⟨heap, halloc⟩ := exists_alloc hroom 0 (.str (replaceChar "" i c))
    have hrun := opInsc_nil (hp.trans hnil) (by rw [hi, hc]; exact halloc)
    obtain ⟨w, hset, hw⟩ := setDstPtr_moved hdst u.heap.nextId heap
    refine ⟨w, heap, hrun.trans hset, hw, sameWords_alloc halloc, fun q _ hq => ?_,
      fun obj s hget => ?_⟩
    · rw [(alloc_cases halloc).2.2, if_neg (hfresh rfl hq)]
    · rw [hnil, Heap.get, if_pos rfl] at hget
      cases hget
  · have hstr : u.heap.StringAt p := by
      intro obj' hget'
      cases hget.symm.trans hget'
      exact ⟨s, hs⟩
    obtain ⟨count, typeId, trace, data⟩ := obj
    cases hs
    have hsame : ∀ obj' s', u.heap.get p = some obj' → obj'.data = .str s' →
        obj'.refCount = count ∧ s' = s := by
      intro obj' s' hget' hs'
      cases hget.symm.trans hget'
      cases hs'
      exact ⟨rfl, rfl⟩
    by_cases hcount : 1 < count.toNat
    · obtain ⟨hwords, hnext, hdec⟩ := decRef_string hstr
      obtain ⟨heap, halloc⟩ := exists_alloc (h := u.heap.decRef p) (by rwa [hnext]) typeId (.str s)
      obtain ⟨-, -, hheap⟩ := alloc_cases halloc
      have hne : (u.heap.decRef p).nextId ≠ p := by
        intro heq
        rw [← heq, hnext, get_of_nextId_le (BitVec.le_refl _)] at hget
        cases hget
      have hnew : heap.StringAt (u.heap.decRef p).nextId := by
        intro obj' hget'
        rw [hheap, if_pos rfl] at hget'
        cases hget'
        exact ⟨s, rfl⟩
      obtain ⟨w, hset, hw⟩ := setDstPtr_moved hdst (u.heap.decRef p).nextId
        (heap.setString (u.heap.decRef p).nextId (replaceChar s i c))
      have hrun := opInsc_copies hp hget hcount halloc hne
      rw [hi, hc] at hrun
      refine ⟨w, _, hrun.trans hset, hw,
        (hwords.trans (sameWords_alloc halloc)).trans (sameWords_setString hnew _),
        fun q hqp hq => ?_, ?_⟩
      · rw [setString, get_update, if_neg (hfresh hnext hq), hheap, if_neg (hfresh hnext hq), hdec,
          if_neg hqp]
      intro obj' s' hget' hs'
      obtain ⟨hcount', rfl⟩ := hsame obj' s' hget' hs'
      rw [hcount', if_neg (by omega)]
      have hkept : (heap.setString (u.heap.decRef p).nextId (replaceChar s' i c)).get p =
          some (HeapObject.drop 1 ⟨count, typeId, trace, .str s'⟩) := by
        rw [setString, get_update, if_neg (Ne.symm hne), hheap, if_neg (Ne.symm hne), hdec,
          if_pos rfl, hget, Option.bind_some, released, if_neg (by simp only; omega)]
      exact text_of_get hkept rfl
    · have hrun := opInsc_in_place hp hget hcount
      rw [hi, hc] at hrun
      refine ⟨_, _, hrun, ⟨rfl, fun _ _ => rfl, rfl, rfl, fun _ => rfl, rfl⟩,
        sameWords_setString hstr _, fun q hqp _ => ?_, ?_⟩
      · rw [setString, get_update, if_neg hqp]
      intro obj' s' hget' hs'
      obtain ⟨hcount', rfl⟩ := hsame obj' s' hget' hs'
      rw [hcount', if_pos (by omega)]
      have hchanged : (u.heap.setString p (replaceChar s' i c)).get p =
          some ⟨count, typeId, trace, .str (replaceChar s' i c)⟩ := by
        rw [setString, get_update, if_pos rfl, hget]
        rfl
      exact text_of_get hchanged rfl

/-- `insc` follows a fetch that leaves the ids and the strings as they are. -/
theorem insc_ready (env : Env) (nested : Nested) {vm₁ : VmState} {heap₁ : Heap}
    (h : Ready vm site home p i c) (hm : Moved vm vm₁ (site.strSlot vm) heap₁)
    (htemp : readWord vm₁.frames.data (site.strSlot vm) = p) (hnext : heap₁.nextId = vm.heap.nextId)
    (hstring : TakesChar heap₁ p) :
    ∃ vm' heap, step env nested site.insc vm₁ = .ok () vm' ∧
      Moved vm vm' (site.strSlot vm) heap ∧ SameWords heap₁ heap ∧
      (∀ q, q ≠ p → (heap₁.get q).isSome → heap.get q = heap₁.get q) ∧
      ∀ obj s, heap₁.get p = some obj → obj.data = .str s →
        heap.text p = if obj.refCount.toNat ≤ 1 then replaceChar s i c else s := by
  obtain ⟨u, hbegin, hdst, hu, hi, hc, hp⟩ := begin_insc h hm
  have hroom : u.heap.nextId < u.heap.nextId + 1 := by
    rw [hu.heap, hnext]
    exact h.room
  rw [← hu.heap] at hstring
  obtain ⟨w, heap, hinsc, hw, hwords, hothers, htext⟩ :=
    opInsc_ready hdst (hp.trans htemp) hroom hi hc hstring
  obtain ⟨vm', hstep, hm'⟩ := step_insc env nested hbegin hinsc hw
  rw [hu.heap] at hwords hothers htext
  exact ⟨vm', heap, hstep, hu.trans hm', hwords, hothers, htext⟩

/-- The whole code ends well and writes the temporary only. -/
theorem run_ready (env : Env) (nested : Nested) (hop : site.op = .movp ∨ site.op = .movw)
    (h : Ready vm site home (home.word vm) i c) :
    ∃ vm' heap, site.run env nested vm = .ok () vm' ∧ Moved vm vm' (site.strSlot vm) heap ∧
      SameWords vm.heap heap ∧ (home.word vm ≠ nil → heap.text (home.word vm) =
        if site.refCount vm (home.word vm) ≤ 1 then withChar (home.text vm) i c
        else home.text vm) := by
  obtain ⟨vm₁, hfetch, hm₁, htemp⟩ := step_fetch env nested hop h
  obtain ⟨hwords, hnext, hget⟩ := fetchedHeap_spec h
  have hstring : TakesChar (site.fetchedHeap vm (home.word vm)) (home.word vm) := by
    rcases h.string with hnil | ⟨obj, s, hobj, hs, hpos⟩
    · exact .inl hnil
    · obtain ⟨obj', hobj', hs', -⟩ := hget obj hobj hpos
      exact .inr ⟨obj', s, hobj', hs'.trans hs⟩
  obtain ⟨vm', heap, hstep, hm', hwords', -, htext⟩ :=
    insc_ready env nested h hm₁ htemp hnext hstring
  refine ⟨vm', heap, ?_, hm', hwords.trans hwords', fun hne => ?_⟩
  · rw [Site.run, bind_ok hfetch, hstep]
  · rcases h.string with hnil | ⟨obj, s, hobj, hs, hpos⟩
    · exact absurd hnil hne
    · have hold : home.text vm = s := text_of_get hobj hs
      obtain ⟨obj', hobj', hs', hcount⟩ := hget obj hobj hpos
      rw [htext obj' s hobj' (hs'.trans hs), hcount, hold, replaceChar_eq (hold ▸ h.index_le)]

/-- So it does with what another place has, which is what it changes. -/
theorem run_astray (env : Env) (nested : Nested) (hop : site.op = .movw)
    (h : Ready vm site home p i c) (hp : p ≠ home.word vm) (hstring : TakesChar vm.heap p) :
    ∃ vm' heap, site.run env nested vm = .ok () vm' ∧ Moved vm vm' (site.strSlot vm) heap ∧
      SameWords vm.heap heap ∧ heap.text (home.word vm) = home.text vm := by
  obtain ⟨vm₁, hfetch, hm₁, htemp⟩ := step_fetch env nested (.inr hop) h
  have hheap : site.fetchedHeap vm p = vm.heap := by
    rw [Site.fetchedHeap, if_neg (by rw [hop]; decide)]
  rw [hheap] at hm₁
  obtain ⟨vm', heap, hstep, hm', hwords, hothers, -⟩ :=
    insc_ready env nested h hm₁ htemp rfl hstring
  refine ⟨vm', heap, by rw [Site.run, bind_ok hfetch, hstep], hm', hwords, ?_⟩
  rcases h.string with hnil | ⟨obj, s, hobj, hs, hpos⟩
  · rw [Cell.text, hnil, text_nil, text_nil]
  · have hkept := (hothers _ (Ne.symm hp) (by rw [hobj]; rfl)).trans hobj
    rw [Cell.text, text_of_get hkept hs, text_of_get hobj hs]

/-- `insc` raises a fault where another place has no string. -/
theorem run_faults (env : Env) (nested : Nested) (hop : site.op = .movw)
    (h : Ready vm site home p i c) (hstring : ¬ TakesChar vm.heap p) :
    ∀ vm', site.run env nested vm ≠ .ok () vm' := by
  obtain ⟨vm₁, hfetch, hm₁, htemp⟩ := step_fetch env nested (.inr hop) h
  have hheap : site.fetchedHeap vm p = vm.heap := by
    rw [Site.fetchedHeap, if_neg (by rw [hop]; decide)]
  rw [hheap] at hm₁
  obtain ⟨u, hbegin, hdst, hu, -, -, hp⟩ := begin_insc h hm₁
  have hfault : opInsc u = .error (.threadFault "insc on non-string") u :=
    opInsc_fault (hp.trans htemp) (hu.heap ▸ hstring)
  intro vm' hrun
  rw [Site.run, bind_ok hfetch, step, bind_ok hbegin] at hrun
  simp only [bind_apply, show perform env nested site.insc u = _ from hfault] at hrun
  cases hrun

/-- An array that is taken for a string raises an exception. -/
theorem run_raises (env : Env) (nested : Nested) (hop : site.op = .indc)
    (h : Ready vm site home p i c) : ∀ vm', site.run env nested vm ≠ .ok () vm' := by
  obtain ⟨target, hsource, hread⟩ := h.source
  obtain ⟨middle, hmiddle⟩ := h.middle
  have hbelow := h.below
  have hdst : resolveOperand site.fetch.destination vm.frames.currentDataOffset vm.frames.data vm.mp
      vm.heapRefs = .ok (.frame (site.strSlot vm)) :=
    resolve_opFp (by simp only [Site.idxSlot] at hbelow; omega) _ _ _
  let u : VmState := { vm with
    src := target, mid := middle, dst := .frame (site.strSlot vm)
    immSrc := site.source.register1, immMid := site.middle.register1
    immDst := site.fetch.destination.register1, nextPc := vm.pc + 1 }
  have hbegin : begin site.fetch vm = .ok () u := begin_ok hsource hmiddle hdst
  have hsrc : u.readWordAt u.src u.immSrc = p := by
    rw [← hread]
    cases target <;> rfl
  have hindc : opIndc u = raiseException "nil dereference" u := by
    have hnone : u.heap.getString p = none := h.array hop
    have hptr : srcPtr u = .ok p u := (srcWord_apply u).trans (by rw [hsrc])
    unfold opIndc
    rw [bind_ok hptr, bind_ok (midWord_apply u), bind_ok (get_apply u), hnone]
  have hperform : perform env nested site.fetch u = opIndc u := by
    simp only [perform, Site.fetch, hop]
  intro vm' hrun
  rw [Site.run, step, bind_assoc, bind_ok hbegin, bind_assoc] at hrun
  obtain ⟨_, vm₁, hraised, -⟩ := bind_eq_ok.mp hrun
  rw [hperform, hindc] at hraised
  exact raiseException_unhandled (show u.handlers = [] from h.compiled) _ _ hraised

/-- Where the fetch reads the string. -/
theorem assigned_iff_unshared (env : Env) (nested : Nested) (hop : site.op = .movp ∨ site.op = .movw)
    (h : Ready vm site home (home.word vm) i c) :
    (∃ vm', site.run env nested vm = .ok () vm' ∧
      CharAssigned vm vm' home (site.strSlot vm) i c) ↔
        Unshared vm site home (home.word vm) i c := by
  obtain ⟨vm', heap, hrun, hm, hwords, htext⟩ := run_ready env nested hop h
  have hcell (cell : Cell) (hapart : cell.Apart (site.strSlot vm)) :
      cell.text vm' = heap.text (cell.word vm) := by
    rw [Cell.text, hm.heap, hm.word hwords hapart]
  have hhome := hcell home h.apart
  constructor
  · rintro ⟨_, hrun', hdone⟩
    cases hrun.symm.trans hrun'
    have hnew := hhome.symm.trans hdone.updated
    have hnil : home.word vm ≠ nil := by
      intro hnil
      have hold : home.text vm = "" := by rw [Cell.text, hnil, text_nil]
      rw [hnil, text_nil, hold] at hnew
      have hchar := withChar_eq_self.mp hnew.symm
      cases hchar
    have hmoved : site.op ≠ .indc := by
      rcases hop with hop | hop <;> rw [hop] <;> decide
    have htakes : TakesChar vm.heap (home.word vm) := by
      rcases h.string with hnil | ⟨obj, s, hobj, hs, -⟩
      · exact .inl hnil
      · exact .inr ⟨obj, s, hobj, hs⟩
    refine ⟨hmoved, hnil, ?_⟩
    by_cases hsame : (home.text vm).toList[i]? = some c
    · exact .inl ⟨hsame, htakes⟩
    · have hchanged : withChar (home.text vm) i c ≠ home.text vm :=
        fun heq => hsame (withChar_eq_self.mp heq)
      rw [htext hnil] at hnew
      by_cases hcount : site.refCount vm (home.word vm) ≤ 1
      · refine .inr ⟨rfl, hcount, fun cell hne hapart hshared => hchanged ?_⟩
        have hkept := hdone.others cell hne hapart hshared
        rw [hcell cell hapart, hshared, htext hnil, if_pos hcount] at hkept
        exact hkept.trans (congrArg vm.heap.text hshared)
      · rw [if_neg hcount] at hnew
        exact absurd hnew.symm hchanged
  · intro hu
    refine ⟨vm', hrun, ?_⟩
    have htext := htext hu.not_nil
    rcases hu.held with ⟨hsame, -⟩ | ⟨-, hcount, halone⟩
    · rw [withChar_eq_self.mpr hsame, ite_self] at htext
      refine ⟨?_, fun cell _ hapart hshared => ?_⟩
      · rw [hhome, htext, withChar_eq_self.mpr hsame]
      · rw [hcell cell hapart, hshared, htext, Cell.text, Cell.text, hshared]
    · rw [if_pos hcount] at htext
      exact ⟨hhome.trans htext,
        fun cell hne hapart hshared => absurd hshared (halone cell hne hapart)⟩

/-- `s[i] = c` does its work when there is nothing to change, or when nothing else holds the
string and its count does not say otherwise; and when it fetches the string. -/
theorem charAssigned_iff_unshared (env : Env) (nested : Nested) (s : Scope) (lv : Expr)
    (site : Site) (hof : site.Of s lv) (vm : VmState) (home : Cell) (p : Word) (i : Nat) (c : Char)
    (h : Ready vm site home p i c) :
    (∃ vm', site.run env nested vm = .ok () vm' ∧
      CharAssigned vm vm' home (site.strSlot vm) i c) ↔ Unshared vm site home p i c := by
  rcases hof.1.op with hop | hop | hop
  · obtain rfl := h.own hop
    exact assigned_iff_unshared env nested (.inl hop) h
  · by_cases hp : p = home.word vm
    · subst hp
      exact assigned_iff_unshared env nested (.inr hop) h
    · by_cases hstring : TakesChar vm.heap p
      · obtain ⟨vm', heap, hrun, hm, hwords, htext⟩ := run_astray env nested hop h hp hstring
        have hcell (cell : Cell) (hapart : cell.Apart (site.strSlot vm)) :
            cell.text vm' = heap.text (cell.word vm) := by
          rw [Cell.text, hm.heap, hm.word hwords hapart]
        have hhome := (hcell home h.apart).trans htext
        constructor
        · rintro ⟨_, hrun', hdone⟩
          cases hrun.symm.trans hrun'
          have hchar := withChar_eq_self.mp (hdone.updated.symm.trans hhome)
          refine ⟨by rw [hop]; decide, fun hnil => ?_, .inl ⟨hchar, hstring⟩⟩
          rw [Cell.text, hnil, text_nil] at hchar
          cases hchar
        · intro hu
          refine ⟨vm', hrun, ?_, fun cell _ hapart hshared => ?_⟩
          · rcases hu.held with ⟨hchar, -⟩ | ⟨heq, -⟩
            · rw [hhome, withChar_eq_self.mpr hchar]
            · exact absurd heq hp
          · rw [hcell cell hapart, hshared, htext, Cell.text, Cell.text, hshared]
      · refine ⟨fun hdone => ?_, fun hu => ?_⟩
        · obtain ⟨vm', hrun, -⟩ := hdone
          exact absurd hrun (run_faults env nested hop h hstring vm')
        · rcases hu.held with ⟨-, htakes⟩ | ⟨heq, -⟩
          · exact absurd htakes hstring
          · exact absurd heq hp
  · refine ⟨fun hdone => ?_, fun hu => absurd hop hu.moved⟩
    obtain ⟨vm', hrun, -⟩ := hdone
    exact absurd hrun (run_raises env nested hop h vm')

end

/-! ### A local -/

/-- A string of this storage class at 32 in the frame. -/
def localScope (ty : ValType) : Scope where
  locals := [("s", 32, ty, .word)]

def localSite (ty : ValType) : Site := ⟨movOpcode ty .word, opFp 32, .unused, 36⟩

/-- Literals are words. -/
def genLiteralTo : Expr → Nat → Emit Unit
  | .intLit v, dst => emit ⟨.movw, .imm (v.setWidth 32), .unused, opFp dst⟩
  | .charLit v, dst => emit ⟨.movw, .imm v, .unused, opFp dst⟩
  | _, _ => pure ()

/-- The code of the character and of the index. -/
def partsEmitted : Emitter where
  code := [⟨.movw, .imm 120, .unused, opFp 44⟩, ⟨.movw, .imm 0, .unused, opFp 36⟩]
  nextLocal := 48

theorem localSite_of {ty : ValType} (hty : ty ≠ .array) :
    (localSite ty).Of (localScope ty) (.ident "s") := by
  have hvar : lookupVar (localScope ty) "s" = some (.frame 32, ty, .word) := rfl
  have hslot : Compound.Slot.frame 32 ≠ .frame 40 := by decide
  have hfetched : Fetched (localScope ty) 40 (.ident "s") (movOpcode ty .word) :=
    .variable rfl hvar hty hslot
  refine ⟨hfetched, genLiteralTo, fun _ => pure 0, .intLit 0, .charLit 120, ⟨[], 36⟩, partsEmitted,
    ⟨partsEmitted.code ++ [(localSite ty).fetch, (localSite ty).insc], 48⟩, rfl, ?_, rfl⟩
  simp only [genElementAssign, if_neg hfetched.not_array]
  rfl

/-- A frame with a string at 32, and with the parts of `s[0] = 'x'`. -/
def localFrame : List Byte :=
  List.replicate 48 0 ++ [0, 0, 0, 0x10, 0, 0, 0, 0, 0, 0, 0, 0, 120, 0, 0, 0]

def localState (vm : VmState) (heap : Heap) : VmState :=
  { vm with
    module := .ofCode "main" [] 0, mp := [], frames := ⟨localFrame, 0, 64⟩, heap := heap, loadedModules := []
    currentLoadedModule := none, callerMpStack := [], heapRefs := [], threadQueue := [] }

theorem exists_localHeap : ∃ heap,
    Heap.new.alloc 0 (.str "abc") none = some (heapIdBase, heap) ∧ heap.nextId = heapIdBase + 1 :=
  ⟨_, rfl, rfl⟩

theorem word_localState (vm : VmState) (heap : Heap) :
    (Cell.frame 48).word (localState vm heap) = heapIdBase :=
  show readWord localFrame 48 = heapIdBase by decide

theorem text_localState (vm : VmState) {heap : Heap}
    (halloc : Heap.new.alloc 0 (.str "abc") none = some (heapIdBase, heap)) :
    (localState vm heap).heap.get ((Cell.frame 48).word (localState vm heap)) =
        some ⟨1, 0, none, .str "abc"⟩ ∧
      (Cell.frame 48).text (localState vm heap) = "abc" := by
  have hword : readWord (localFrame) 48 = heapIdBase := by decide
  have hget : heap.get (readWord (localFrame) 48) = some ⟨1, 0, none, .str "abc"⟩ := by
    rw [hword, (alloc_cases halloc).2.2, if_pos rfl]
  exact ⟨hget, text_of_get hget rfl⟩

theorem refs_localState (vm : VmState) {heap : Heap}
    (halloc : Heap.new.alloc 0 (.str "abc") none = some (heapIdBase, heap)) :
    (localState vm heap).heap.refs heapIdBase = 1 :=
  refs_of_alloc halloc

theorem ready_localState (vm : VmState) {heap : Heap} (ty : ValType)
    (halloc : Heap.new.alloc 0 (.str "abc") none = some (heapIdBase, heap))
    (hnext : heap.nextId = heapIdBase + 1) :
    Ready (localState vm heap) (localSite ty) (.frame 48) heapIdBase 0 'x' := by
  obtain ⟨hget, htext⟩ := text_localState vm halloc
  have hslot : (localSite ty).strSlot (localState vm heap) = 56 := rfl
  have haddr : 16 + 32 < mpBase := by decide
  exact {
    fits := by simp [Site.idxSlot, localState, localFrame, localSite, FrameStack.currentDataOffset,
      frameHeaderSize]
    below := by simp [Site.idxSlot, localState, localSite, FrameStack.currentDataOffset,
      frameHeaderSize, mpBase]
    source := ⟨.frame 48, resolve_opFp haddr _ _ _, word_localState vm heap⟩
    middle := ⟨.none, rfl⟩
    own := fun _ => (word_localState vm heap).symm
    array := fun hindc => by
      cases ty <;> cases hindc
    compiled := rfl
    apart := .inl (by rw [hslot]; decide)
    index := show readWord (localFrame) 52 = 0 by decide
    char := show readWord (localFrame) 60 = 120 by decide
    index_le := Nat.zero_le _
    short := by
      rw [htext]
      decide
    string := .inr ⟨_, "abc", hget, rfl, show 0 < (1#32).toNat by decide⟩
    temp := by
      have htemp : readWord (localFrame) 56 = nil := by decide
      intro obj hobj
      have hnone : heap.get (readWord (localFrame) 56) = some obj := hobj
      rw [htemp, Heap.get, if_pos rfl] at hnone
      cases hnone
    room := by
      show heap.nextId < heap.nextId + 1
      rw [hnext]
      decide
    counted := by
      rw [word_localState, refs_localState vm halloc]
      decide }

theorem readWord_localFrame {off : Nat} (hoff : off ≠ 48) :
    readWord localFrame off ≠ heapIdBase := by
  by_cases hlt : off < 61
  · have hall : ∀ off < 61, off ≠ 48 → readWord localFrame off ≠ heapIdBase := by decide
    exact hall off hlt hoff
  · have hlen : localFrame.length = 64 := by decide
    rw [readWord, if_neg (by omega)]
    decide

/-- Only the local holds the string. -/
theorem word_localState_ne {vm : VmState} {heap : Heap}
    (halloc : Heap.new.alloc 0 (.str "abc") none = some (heapIdBase, heap)) {cell : Cell}
    (hne : cell ≠ .frame 48) : cell.word (localState vm heap) ≠ heapIdBase := by
  have hzero : (0 : Word) ≠ heapIdBase := by decide
  cases cell with
  | frame off => exact readWord_localFrame fun heq => hne (by rw [heq])
  | data moduleIdx off =>
      have hmp : (localState vm heap).moduleMp moduleIdx = some [] ∨
          (localState vm heap).moduleMp moduleIdx = none := by
        by_cases hmain : moduleIdx = 0
        · rw [hmain]
          exact .inl rfl
        · refine .inr ?_
          rw [VmState.moduleMp, if_neg hmain]
          exact if_neg hmain
      rcases hmp with hmp | hmp <;> rw [Cell.word, hmp] <;> exact hzero
  | object id off =>
      have hwords : heap.words? id = none := by
        rw [words?, (alloc_cases halloc).2.2]
        split
        · rfl
        · rw [Heap.get]
          split <;> rfl
      rw [Cell.word, show (localState vm heap).heap.words? id = none from hwords]
      exact hzero
  | threadFrame thread off => exact hzero
  | threadData thread off => exact hzero

/-- Fetched without a new reference, the string of a local is changed where it is. -/
theorem uncounted_char_assigned : ∃ vm vm', ∃ site : Site, ∃ home : Cell,
    site.Of (localScope .word) (.ident "s") ∧ home.text vm = "abc" ∧
      site.run Env.bare (nestedAt Env.bare 0) vm = .ok () vm' ∧ home.text vm' = "xbc" := by
  obtain ⟨vm, -⟩ : ∃ vm, VmState.withArgs [] true (.ofCode "main" [] 0) [] = some vm := ⟨_, rfl⟩
  obtain ⟨heap, halloc, hnext⟩ := exists_localHeap
  obtain ⟨hget, htext⟩ := text_localState vm halloc
  have hready := ready_localState vm .word halloc hnext
  have hof : (localSite .word).Of (localScope .word) (.ident "s") := localSite_of nofun
  have hword : (Cell.frame 48).word (localState vm heap) = heapIdBase := word_localState vm heap
  have hcount : (localSite .word).refCount (localState vm heap) heapIdBase = 1 := by
    rw [Site.refCount, if_neg (fun h => nomatch h.1), refs_localState vm halloc]
  have hunshared :
      Unshared (localState vm heap) (localSite .word) (.frame 48) heapIdBase 0 'x' := by
    refine ⟨by decide, by rw [hword]; decide,
      .inr ⟨hword.symm, by rw [hword, hcount], fun cell hne _ => ?_⟩⟩
    rw [hword]
    exact word_localState_ne halloc hne
  obtain ⟨vm', hrun, hdone⟩ := (charAssigned_iff_unshared Env.bare (nestedAt Env.bare 0) _ _
    (localSite .word) hof _ _ _ _ _ hready).mpr hunshared
  refine ⟨_, vm', _, _, hof, htext, hrun, ?_⟩
  rw [hdone.updated, htext]
  decide

/-- A local keeps its string: the fetch is the second reference to it. -/
theorem local_char_lost : ∃ vm, ∃ site : Site, ∃ home : Cell,
    site.Of (localScope .ptr) (.ident "s") ∧ Ready vm site home (home.word vm) 0 'x' ∧
      home.text vm = "abc" ∧
      ∀ env nested vm', site.run env nested vm = .ok () vm' → home.text vm' = "abc" := by
  obtain ⟨vm, -⟩ : ∃ vm, VmState.withArgs [] true (.ofCode "main" [] 0) [] = some vm := ⟨_, rfl⟩
  obtain ⟨heap, halloc, hnext⟩ := exists_localHeap
  obtain ⟨hget, htext⟩ := text_localState vm halloc
  have hready := ready_localState vm .ptr halloc hnext
  have hword : (Cell.frame 48).word (localState vm heap) = heapIdBase := word_localState vm heap
  rw [← hword] at hready
  refine ⟨localState vm heap, localSite .ptr, .frame 48, localSite_of nofun, hready, htext,
    fun env nested vm' hrun => ?_⟩
  obtain ⟨_, heap', hrun', hm, hwords, htext'⟩ := run_ready env nested (.inl rfl) hready
  cases hrun.symm.trans hrun'
  have htemp : readWord (localState vm heap).frames.data
      ((localSite .ptr).strSlot (localState vm heap)) ≠ heapIdBase :=
    show readWord localFrame 56 ≠ heapIdBase by decide
  have hcount : (localSite .ptr).refCount (localState vm heap) heapIdBase = 2 := by
    rw [Site.refCount, if_pos ⟨rfl, htemp⟩, refs_localState vm halloc]
  rw [hword, hcount, htext] at htext'
  have hcell : (Cell.frame 48).word vm' = heapIdBase :=
    (hm.word hwords hready.apart).trans hword
  rw [Cell.text, hm.heap, hcell]
  exact htext' (by decide)

end RiceVM.Limbo.CharAssign
