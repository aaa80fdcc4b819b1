import RiceVM.Address

/-!
The frame stack as a stack of frames. A frame has its locals and, once it is called,
the pc it returns to; `Laid` says how such frames lie in the flat buffer, and
`Nesting` runs the operations in the order a program with nested calls uses them.
-/
namespace RiceVM
open Memory Buffer

/-- A frame that was allocated and, where `ret` is some pc, called from there. -/
structure Frame where
  ret : Option Pc
  locals : List Byte

/-- The bytes the frames take, headers included. The innermost frame comes first. -/
def height : List Frame → Nat
  | [] => 0
  | f :: frames => height frames + frameHeaderSize + f.locals.length

/-- Base of the innermost frame that was called. -/
def calledBase : List Frame → Nat
  | [] => 0
  | f :: frames => if f.ret.isSome then height frames else calledBase frames

@[simp] theorem height_append (above below : List Frame) :
    height (above ++ below) = height above + height below := by
  induction above with
  | nil => simp [height]
  | cons f above ih => simp only [List.cons_append, height, ih]; omega

theorem calledBase_le (frames : List Frame) : calledBase frames ≤ height frames := by
  induction frames with
  | nil => exact Nat.le_refl _
  | cons f frames ih =>
      simp only [calledBase, height]
      split <;> omega

theorem calledBase_lt {frames : List Frame} (h : frames ≠ []) :
    calledBase frames < height frames := by
  induction frames with
  | nil => exact absurd rfl h
  | cons f frames ih =>
      simp only [calledBase, height, frameHeaderSize]
      split
      · omega
      · have := calledBase_le frames
        omega

theorem calledBase_append {pending : List Frame} (h : ∀ f ∈ pending, f.ret = none)
    (frames : List Frame) : calledBase (pending ++ frames) = calledBase frames := by
  induction pending with
  | nil => rfl
  | cons f pending ih =>
      simp only [List.cons_append, calledBase, h f (List.mem_cons_self ..), Option.isSome_none,
        Bool.false_eq_true, if_false]
      exact ih fun g hg => h g (List.mem_cons_of_mem f hg)

/-- How frames lie in a buffer: the header of a called frame holds where it returns to. -/
inductive Laid : List Frame → List Byte → Prop
  | empty : Laid [] []
  | pending {frames : List Frame} {buf header locals : List Byte} : Laid frames buf →
      header.length = frameHeaderSize → Laid (⟨none, locals⟩ :: frames) (buf ++ (header ++ locals))
  | called {frames : List Frame} {buf header locals : List Byte} {pc : Pc} : Laid frames buf →
      header.length = frameHeaderSize → readWord header 0 = pc →
      (readWord header 4).asUsize = calledBase frames →
      Laid (⟨some pc, locals⟩ :: frames) (buf ++ (header ++ locals))

theorem Laid.length {frames : List Frame} {buf : List Byte} (h : Laid frames buf) :
    buf.length = height frames := by
  induction h with
  | empty => rfl
  | pending _ hh ih | called _ hh _ _ ih =>
      simp only [List.length_append, height, hh, ih]
      omega

theorem calledBase_congr {below below' : List Frame} (hheight : height below' = height below)
    (hbase : calledBase below' = calledBase below) (above : List Frame) :
    calledBase (above ++ below') = calledBase (above ++ below) := by
  induction above with
  | nil => exact hbase
  | cons f above ih => simp only [List.cons_append, calledBase, height_append, hheight, ih]

/-- The inner frames lie above the outer ones, and stay as they are when the outer ones are
replaced by others of the same shape. -/
theorem Laid.split {above below : List Frame} {buf : List Byte} (h : Laid (above ++ below) buf) :
    ∃ low high, buf = low ++ high ∧ Laid below low ∧
      ∀ {below' : List Frame} {low' : List Byte}, Laid below' low' →
        height below' = height below → calledBase below' = calledBase below →
        Laid (above ++ below') (low' ++ high) := by
  induction above generalizing buf with
  | nil =>
      refine ⟨buf, [], (List.append_nil _).symm, h, fun h' _ _ => ?_⟩
      rw [List.append_nil]
      exact h'
  | cons f above ih =>
      rw [List.cons_append] at h
      cases h with
      | @pending _ buf header locals hlaid hh =>
          obtain ⟨low, high, rfl, hlow, hrest⟩ := ih hlaid
          refine ⟨low, high ++ (header ++ locals), List.append_assoc _ _ _, hlow,
            fun h' hheight hbase => ?_⟩
          rw [← List.append_assoc]
          exact .pending (hrest h' hheight hbase) hh
      | @called _ buf header locals pc hlaid hh hpc hcaller =>
          obtain ⟨low, high, rfl, hlow, hrest⟩ := ih hlaid
          refine ⟨low, high ++ (header ++ locals), List.append_assoc _ _ _, hlow,
            fun h' hheight hbase => ?_⟩
          rw [← List.append_assoc]
          refine .called (hrest h' hheight hbase) hh hpc (hcaller.trans ?_)
          exact (calledBase_congr hheight hbase above).symm

/-- The innermost frame: what lies below it, its header and its locals. -/
theorem Laid.top {f : Frame} {frames : List Frame} {buf : List Byte} (h : Laid (f :: frames) buf) :
    ∃ low header, buf = low ++ (header ++ f.locals) ∧ Laid frames low ∧
      header.length = frameHeaderSize := by
  cases h with
  | @pending _ low header locals hlaid hh => exact ⟨low, header, rfl, hlaid, hh⟩
  | @called _ low header locals pc hlaid hh _ _ => exact ⟨low, header, rfl, hlaid, hh⟩

/-- The locals of every frame are in the buffer. -/
theorem Laid.locals {above below : List Frame} {f : Frame} {buf : List Byte}
    (h : Laid (above ++ f :: below) buf) :
    slice buf (height below + frameHeaderSize) f.locals.length = f.locals := by
  obtain ⟨low, high, rfl, hlow, _⟩ := h.split
  have hlen : low.length = height below + frameHeaderSize + f.locals.length := hlow.length
  rw [slice_append (by omega)]
  obtain ⟨low, header, rfl, hlaid, hh⟩ := hlow.top
  rw [slice, ← hlaid.length, ← List.append_assoc,
    List.drop_left' (by rw [List.length_append, hh]), List.take_length]

/-- Writing into the locals of a frame changes that frame only. -/
theorem Laid.write {above below : List Frame} {f : Frame} {buf bytes : List Byte} {off : Nat}
    (h : Laid (above ++ f :: below) buf) (hoff : off + bytes.length ≤ f.locals.length) :
    Laid (above ++ { f with locals := splice f.locals off bytes } :: below)
      (splice buf (height below + frameHeaderSize + off) bytes) := by
  obtain ⟨low, high, rfl, hlow, hrest⟩ := h.split
  obtain ⟨ret, locals⟩ := f
  have hlocals : (splice locals off bytes).length = locals.length := length_splice hoff
  have hsplice : ∀ {low header : List Byte}, Laid below low → header.length = frameHeaderSize →
      splice (low ++ (header ++ locals) ++ high) (height below + frameHeaderSize + off) bytes =
        low ++ (header ++ splice locals off bytes) ++ high := by
    intro low header hlaid hh
    have hpre : (low ++ header).length = height below + frameHeaderSize := by
      rw [List.length_append, hlaid.length, hh]
    rw [← List.append_assoc low, List.append_assoc (low ++ header), ← hpre, splice_append_right,
      splice_append_left hoff, ← List.append_assoc low, List.append_assoc (low ++ header)]
  cases hlow with
  | @pending _ low header _ hlaid hh =>
      rw [hsplice hlaid hh]
      refine hrest (.pending hlaid hh) ?_ rfl
      simp only [height, hlocals]
  | @called _ low header _ pc hlaid hh hpc hcaller =>
      rw [hsplice hlaid hh]
      refine hrest (.called hlaid hh hpc hcaller) ?_ rfl
      simp only [height, hlocals]

/-- Every frame but the outermost ends within the limit of the frame stack. -/
def WithinLimit : List Frame → Prop
  | [] => True
  | f :: frames => (frames ≠ [] → height (f :: frames) ≤ maxFrameStackSize) ∧ WithinLimit frames

theorem WithinLimit.calledBase_le {frames : List Frame} (h : WithinLimit frames) :
    calledBase frames ≤ maxFrameStackSize := by
  induction frames with
  | nil => exact Nat.zero_le _
  | cons f frames ih =>
      simp only [calledBase]
      split
      · cases frames with
        | nil => exact Nat.zero_le _
        | cons g frames =>
            have hfit := h.1 (List.cons_ne_nil g frames)
            simp only [height] at hfit ⊢
            omega
      · exact ih h.2

theorem WithinLimit.replace {above below below' : List Frame} (h : WithinLimit (above ++ below))
    (hbelow : WithinLimit below') (hheight : height below' = height below) (hne : below ≠ []) :
    WithinLimit (above ++ below') := by
  induction above with
  | nil => exact hbelow
  | cons f above ih =>
      refine ⟨fun _ => ?_, ih h.2⟩
      have hfit := h.1 (List.append_ne_nil_of_right_ne_nil above hne)
      simp only [List.append_eq, height, height_append] at hfit ⊢
      rwa [hheight]

theorem WithinLimit.below {above below : List Frame} (h : WithinLimit (above ++ below)) :
    WithinLimit below := by
  induction above with
  | nil => exact h
  | cons f above ih => exact ih h.2

/-- The machine's frame stack holds these frames. -/
structure Holds (frames : List Frame) (fs : FrameStack) : Prop where
  laid : Laid frames fs.data
  base : fs.currentBase = calledBase frames
  size : fs.currentBase + fs.currentSize ≤ fs.data.length
  fits : WithinLimit frames

theorem holds_pushEntry (n : Nat) (pc : Pc) :
    Holds [⟨some pc, List.replicate n 0⟩] (FrameStack.new.pushEntry n pc) := by
  have hdata : (FrameStack.new.pushEntry n pc).data =
      [] ++ (writeWord (writeWord (List.replicate 16 0) 0 pc) 4 0 ++ List.replicate n 0) := by
    have hresize : FrameStack.resize [] (frameHeaderSize + n) =
        List.replicate 16 0 ++ List.replicate n 0 := by
      rw [List.replicate_append_replicate, FrameStack.resize_of_le (Nat.zero_le _)]
      rfl
    simp only [FrameStack.pushEntry, FrameStack.new, hresize]
    rw [writeWord_append_left (by simp), writeWord_append_left (by simp)]
    rfl
  refine ⟨?_, rfl, ?_, fun h => absurd rfl h, trivial⟩
  · rw [hdata]
    refine .called .empty (by simp; rfl) ?_ ?_
    · rw [readWord_writeWord_disjoint _ (by omega), readWord_writeWord_self _ (by simp)]
    · rw [readWord_writeWord_self _ (by simp)]
      rfl
  · rw [hdata]
    simp [FrameStack.pushEntry, frameHeaderSize]

theorem Holds.allocPending {frames : List Frame} {fs fs' : FrameStack} {n off : Nat}
    (h : Holds frames fs) (halloc : fs.allocPending n = .ok (off, fs')) :
    off = height frames + frameHeaderSize ∧ Holds (⟨none, List.replicate n 0⟩ :: frames) fs' := by
  obtain ⟨hoff, hfit, rfl⟩ := FrameStack.allocPending_cases halloc
  have hlen := h.laid.length
  have hoff : off = height frames + frameHeaderSize := by
    have := h.size
    omega
  have hdata : FrameStack.resize fs.data (off + n) =
      fs.data ++ (List.replicate frameHeaderSize 0 ++ List.replicate n 0) := by
    rw [FrameStack.resize_of_le (by omega), List.replicate_append_replicate]
    congr 2
    omega
  refine ⟨hoff, ?_, ?_, ?_, fun _ => ?_, h.fits⟩
  · rw [hdata]
    exact .pending h.laid (List.length_replicate ..)
  · simp only [calledBase, Option.isSome_none, Bool.false_eq_true, if_false]
    exact h.base
  · have := h.size
    rw [FrameStack.length_resize]
    simp only
    omega
  · simp only [height, List.length_replicate]
    omega

theorem Holds.allocPending_ok {frames : List Frame} {fs : FrameStack} {n : Nat}
    (h : Holds frames fs) (hroom : height frames + frameHeaderSize + n ≤ maxFrameStackSize) :
    ∃ off fs', fs.allocPending n = .ok (off, fs') := by
  have hlen := h.laid.length
  have hsize := h.size
  have hbase : max fs.data.length (fs.currentBase + fs.currentSize) = height frames := by omega
  simp only [FrameStack.allocPending, hbase]
  rw [if_pos (by omega)]
  exact ⟨_, _, rfl⟩

/-- `frame` and `mframe` store the frame's type in the reserved part of its header. -/
theorem Holds.stamp {frames : List Frame} {locals : List Byte} {fs : FrameStack}
    (h : Holds (⟨none, locals⟩ :: frames) fs) (val : Word) :
    Holds (⟨none, locals⟩ :: frames)
      { fs with data := writeWord fs.data (height frames + frameHeaderSize - 8) val } := by
  refine ⟨?_, h.base, by rw [length_writeWord]; exact h.size, h.fits⟩
  have hlaid := h.laid
  generalize fs.data = buf at hlaid
  cases hlaid with
  | @pending _ low header _ hlow hh =>
      have hpos : height frames + frameHeaderSize - 8 = low.length + 8 := by
        rw [hlow.length]
        rfl
      rw [hpos, writeWord_append_right, writeWord_append_left (by rw [hh]; decide)]
      exact .pending hlow (by rw [length_writeWord, hh])

theorem Holds.activatePending {frames : List Frame} {locals : List Byte} {fs : FrameStack}
    (h : Holds (⟨none, locals⟩ :: frames) fs) (pc : Pc) :
    ∃ fs', fs.activatePending (height frames + frameHeaderSize) pc = .ok fs' ∧
      Holds (⟨some pc, locals⟩ :: frames) fs' := by
  have hlen : fs.data.length = height frames + frameHeaderSize + locals.length := h.laid.length
  have hvalid : ¬ (height frames + frameHeaderSize < frameHeaderSize ∨
      height frames + frameHeaderSize > fs.data.length) := by omega
  refine ⟨_, if_neg hvalid, ?_, rfl, ?_, h.fits⟩
  · have hlaid := h.laid
    have hbase : (Word.ofUsize fs.currentBase).asUsize = calledBase frames := by
      have hle := h.fits.2.calledBase_le
      have hcaller : fs.currentBase = calledBase frames := h.base
      rw [hcaller, Word.asUsize_ofUsize]
      simp only [maxFrameStackSize, mpBase] at hle
      omega
    generalize fs.data = buf at hlaid
    cases hlaid with
    | @pending _ low header _ hlow hh =>
        have hpos : height frames + frameHeaderSize - frameHeaderSize = low.length + 0 := by
          rw [hlow.length]
          omega
        have hh4 : (4 : Nat) + 4 ≤ header.length := by rw [hh]; decide
        simp only [hpos]
        rw [writeWord_append_right, Nat.add_zero, writeWord_append_right,
          writeWord_append_left (by omega), writeWord_append_left (by rwa [length_writeWord])]
        refine .called hlow (by rw [length_writeWord, length_writeWord, hh]) ?_ ?_
        · rw [readWord_writeWord_disjoint _ (by omega), readWord_writeWord_self _ (by omega)]
        · rw [readWord_writeWord_self _ (by rwa [length_writeWord])]
          exact hbase
  · simp only [length_writeWord]
    omega

theorem Holds.write {above below : List Frame} {f : Frame} {fs : FrameStack} {bytes : List Byte}
    {off : Nat} (h : Holds (above ++ f :: below) fs) (hoff : off + bytes.length ≤ f.locals.length) :
    Holds (above ++ { f with locals := splice f.locals off bytes } :: below)
      { fs with data := splice fs.data (height below + frameHeaderSize + off) bytes } := by
  have hlocals : (splice f.locals off bytes).length = f.locals.length := length_splice hoff
  have hlen : fs.data.length = height above + (height below + frameHeaderSize + f.locals.length) := by
    rw [h.laid.length, height_append, height]
  have hheight : height ({ f with locals := splice f.locals off bytes } :: below) =
      height (f :: below) := by simp only [height, hlocals]
  refine ⟨h.laid.write hoff, h.base.trans (calledBase_congr hheight rfl above).symm, ?_, ?_⟩
  · simp only
    rw [length_splice (by omega)]
    exact h.size
  · have hbelow := h.fits.below
    exact h.fits.replace ⟨fun hne => hheight ▸ hbelow.1 hne, hbelow.2⟩ hheight
      (List.cons_ne_nil f below)

/-- Popping the called frame drops what was allocated above it and returns to its caller. -/
theorem Holds.pop {pending frames : List Frame} {pc : Pc} {locals : List Byte} {fs : FrameStack}
    (h : Holds (pending ++ ⟨some pc, locals⟩ :: frames) fs) (hp : ∀ f ∈ pending, f.ret = none) :
    ∃ fs', fs.pop = .ok (pc, fs') ∧ Holds frames fs' ∧
      fs'.data = fs.data.take (height frames) := by
  have hbase : fs.currentBase = height frames := by
    rw [h.base, calledBase_append hp]
    rfl
  obtain ⟨low, high, hdata, hlow, _⟩ := h.laid.split
  cases hlow with
  | @called _ low header _ _ hlaid hh hpc hcaller =>
      have hlen := hlaid.length
      have hdata : fs.data = low ++ (header ++ (locals ++ high)) := by
        rw [hdata, List.append_assoc, List.append_assoc]
      have hheader : ∀ off, off + 4 ≤ frameHeaderSize →
          readWord fs.data (fs.currentBase + off) = readWord header off := by
        intro off hoff
        rw [hbase, ← hlen, hdata, readWord_append_right, readWord_append (by rw [hh]; exact hoff)]
      have hne : fs.data.isEmpty = false := by
        cases hempty : fs.data with
        | nil =>
            rw [hdata] at hempty
            have := congrArg List.length hempty
            simp only [List.length_append, hh, frameHeaderSize, List.length_nil] at this
            omega
        | cons _ _ => rfl
      have htake : fs.data.take fs.currentBase = low := by
        rw [hbase, ← hlen, hdata, List.take_left]
      have hle := calledBase_le frames
      simp only [FrameStack.pop, hne, Bool.false_eq_true, if_false, htake]
      have hpc0 := hheader 0 (by decide)
      rw [Nat.add_zero] at hpc0
      rw [hpc0, hpc, hheader 4 (by decide), hcaller]
      refine ⟨_, rfl, ?_, ?_⟩
      · have hfits : WithinLimit frames := h.fits.below.2
        cases frames with
        | nil =>
            cases hlaid
            exact ⟨.empty, rfl, Nat.le_refl _, trivial⟩
        | cons f frames =>
            have hlowne : low.isEmpty = false := by
              cases low with
              | nil => simp only [height, List.length_nil, frameHeaderSize] at hlen; omega
              | cons _ _ => rfl
            rw [hbase, hlowne, if_neg (by decide), if_pos hle]
            exact ⟨hlaid, rfl, by simp only; omega, hfits⟩
      · rw [← hbase, htake]
        split
        · rfl
        · split <;> rfl

/-- Properly nested runs of the frame stack: the frame that is called is the last one
allocated, and a pop leaves the frame of the innermost call. -/
inductive Nesting : List Frame → FrameStack → Prop
  | entry (n : Nat) (pc : Pc) :
      Nesting [⟨some pc, List.replicate n 0⟩] (FrameStack.new.pushEntry n pc)
  | alloc {frames : List Frame} {fs fs' : FrameStack} {n off : Nat} : Nesting frames fs →
      fs.allocPending n = .ok (off, fs') → Nesting (⟨none, List.replicate n 0⟩ :: frames) fs'
  | stamp {frames : List Frame} {fs : FrameStack} {locals : List Byte} (val : Word) :
      Nesting (⟨none, locals⟩ :: frames) fs → Nesting (⟨none, locals⟩ :: frames)
        { fs with data := writeWord fs.data (height frames + frameHeaderSize - 8) val }
  | activate {frames : List Frame} {fs fs' : FrameStack} {locals : List Byte} {pc : Pc} :
      Nesting (⟨none, locals⟩ :: frames) fs →
      fs.activatePending (height frames + frameHeaderSize) pc = .ok fs' →
      Nesting (⟨some pc, locals⟩ :: frames) fs'
  | write {above below : List Frame} {f : Frame} {fs : FrameStack} {bytes : List Byte} {off : Nat} :
      Nesting (above ++ f :: below) fs → off + bytes.length ≤ f.locals.length →
      Nesting (above ++ { f with locals := splice f.locals off bytes } :: below)
        { fs with data := splice fs.data (height below + frameHeaderSize + off) bytes }
  | pop {pending frames : List Frame} {fs fs' : FrameStack} {pc pc' : Pc} {locals : List Byte} :
      Nesting (pending ++ ⟨some pc, locals⟩ :: frames) fs → (∀ f ∈ pending, f.ret = none) →
      fs.pop = .ok (pc', fs') → Nesting frames fs'

/-- A nested run keeps its frames where they were put. -/
theorem Nesting.holds {frames : List Frame} {fs : FrameStack} (h : Nesting frames fs) :
    Holds frames fs := by
  induction h with
  | entry n pc => exact holds_pushEntry n pc
  | alloc _ halloc ih => exact (ih.allocPending halloc).2
  | stamp val _ ih => exact ih.stamp val
  | activate _ hact ih =>
      obtain ⟨fs', hrun, hfs'⟩ := ih.activatePending _
      rw [hrun] at hact
      cases hact
      exact hfs'
  | write _ hoff ih => exact ih.write hoff
  | pop _ hp hpop ih =>
      obtain ⟨fs', hrun, hfs', _⟩ := ih.pop hp
      rw [hrun] at hpop
      cases hpop
      exact hfs'

/-- What a stack of frames promises the machine. -/
structure Disciplined (frames : List Frame) (fs : FrameStack) : Prop where
  /-- Every frame has its own range, and its locals are what was written to it. -/
  apart : ∀ {above mid below : List Frame} {g f : Frame},
    frames = above ++ g :: (mid ++ f :: below) →
      height below + frameHeaderSize + f.locals.length ≤ height (mid ++ f :: below)
  locals : ∀ {above below : List Frame} {f : Frame}, frames = above ++ f :: below →
    slice fs.data (height below + frameHeaderSize) f.locals.length = f.locals
  current : fs.currentBase = calledBase frames
  /-- The last frame allocated can be called from anywhere. -/
  calls : ∀ {below : List Frame} {locals : List Byte}, frames = ⟨none, locals⟩ :: below →
    ∀ pc, ∃ fs', fs.activatePending (height below + frameHeaderSize) pc = .ok fs' ∧
      fs'.currentBase = height below
  /-- A pop returns the pc of the matching call to the caller. -/
  pops : ∀ {pending below : List Frame} {pc : Pc} {locals : List Byte},
    frames = pending ++ ⟨some pc, locals⟩ :: below → (∀ f ∈ pending, f.ret = none) →
    ∃ fs', fs.pop = .ok (pc, fs') ∧ fs'.currentBase = calledBase below ∧
      fs'.data = fs.data.take (height below)
  /-- Every frame pointer, and every byte of a frame, is below the module data in the address
  space. -/
  offset : ∀ {above below : List Frame} {f : Frame}, frames = above ++ f :: below →
    height below + frameHeaderSize < mpBase ∧
      height below + frameHeaderSize + f.locals.length ≤ mpBase

/-- Nested calls use the frame stack as a stack. A frame reaches the module data only when it
is an entry frame larger than the frame stack, which nothing checks, or when it has no locals
and fills the frame stack up to its limit. -/
theorem frames_nest_iff {frames : List Frame} {fs : FrameStack} (h : Nesting frames fs) :
    Disciplined frames fs ↔
      (∀ f, frames.getLast? = some f → frameHeaderSize + f.locals.length ≤ maxFrameStackSize) ∧
      ∀ above f below, frames = above ++ f :: below →
        f.locals = [] → height below + frameHeaderSize ≠ maxFrameStackSize := by
  have hold := h.holds
  refine ⟨fun hd => ⟨fun f hlast => ?_, fun above f below hframes _ heq => ?_⟩,
    fun ⟨hentry, hroom⟩ => ⟨?_, ?_, hold.base, ?_, ?_, ?_⟩⟩
  · obtain ⟨above, rfl⟩ := List.getLast?_eq_some_iff.mp hlast
    have hfit := (hd.offset rfl).2
    simp only [height] at hfit
    simp only [maxFrameStackSize]
    omega
  · have := (hd.offset hframes).1
    simp only [maxFrameStackSize] at heq
    omega
  · intro above mid below g f _
    simp only [height_append, height]
    omega
  · rintro above below f rfl
    exact hold.laid.locals
  · rintro below locals rfl pc
    obtain ⟨fs', hrun, hfs'⟩ := hold.activatePending pc
    exact ⟨fs', hrun, hfs'.base⟩
  · rintro pending below pc locals rfl hp
    obtain ⟨fs', hrun, hfs', hdata⟩ := hold.pop hp
    exact ⟨fs', hrun, hfs'.base, hdata⟩
  · intro above below f hframes
    have hne := hroom above f below hframes
    have hfits : WithinLimit (f :: below) := (hframes ▸ hold.fits).below
    cases below with
    | nil =>
        have hfit := hentry f (List.getLast?_eq_some_iff.mpr ⟨above, hframes⟩)
        simp only [maxFrameStackSize] at hfit
        exact ⟨by decide, by simp only [height]; omega⟩
    | cons g below =>
        have hfit := hfits.1 (List.cons_ne_nil g below)
        rw [height] at hfit
        simp only [maxFrameStackSize] at hfit hne
        refine ⟨?_, hfit⟩
        by_cases hlocals : f.locals = []
        · have := hne hlocals
          omega
        · have := List.length_pos_iff.mpr hlocals
          omega

/-- A call from the entry frame. -/
theorem frames_nest_iff_call : ∃ fs,
    Disciplined [⟨some 5, List.replicate 4 0⟩, ⟨some (-1), List.replicate 8 0⟩] fs := by
  have hentry : Nesting _ _ := .entry 8 (-1)
  have hcall : Nesting [⟨some 5, List.replicate 4 0⟩, ⟨some (-1), List.replicate 8 0⟩] _ :=
    .activate (@Nesting.alloc _ _ _ _ 40 hentry rfl) rfl
  refine ⟨_, (frames_nest_iff hcall).mpr ⟨?_, fun above f below hframes hlocals => ?_⟩⟩
  · rintro f hf
    cases hf
    decide
  have hne : ∀ f ∈ ([⟨some 5, List.replicate 4 0⟩, ⟨some (-1), List.replicate 8 0⟩] :
      List Frame), f.locals ≠ [] := by decide
  exact absurd hlocals (hne f (hframes ▸ List.mem_append_right above (List.mem_cons_self ..)))

/-- An entry frame that leaves sixteen bytes and a frame without locals on top of it: the
pointer to that frame is the address of the main module's data. -/
theorem emptyFrame_reaches_moduleData : ∃ frames fs off fs', Nesting frames fs ∧
    fs.allocPending 0 = .ok (off, fs') ∧ decodeVirtualAddr (Word.ofUsize off) 0 = .moduleMp 0 0 ∧
    ¬ Disciplined (⟨none, List.replicate 0 0⟩ :: frames) fs' := by
  obtain ⟨n, hn⟩ : ∃ n, n + 32 = maxFrameStackSize := ⟨maxFrameStackSize - 32, rfl⟩
  have hentry : Nesting _ _ := .entry n (-1)
  have hheight : height [⟨some (-1), List.replicate n 0⟩] = n + frameHeaderSize := by
    simp only [height, List.length_replicate]
    omega
  obtain ⟨off, fs', halloc⟩ := hentry.holds.allocPending_ok (n := 0) (by
    rw [hheight]
    simp only [frameHeaderSize]
    omega)
  have hoff := (hentry.holds.allocPending halloc).1
  have htop : off = maxFrameStackSize := by
    rw [hheight] at hoff
    simp only [frameHeaderSize] at hoff
    omega
  refine ⟨_, _, off, fs', hentry, halloc, ?_, fun hd => ?_⟩
  · rw [htop]
    decide
  · have hbelow := (@Disciplined.offset _ _ hd [] _ _ rfl).1
    rw [← hoff, htop] at hbelow
    exact absurd hbelow (Nat.lt_irrefl _)

end RiceVM
