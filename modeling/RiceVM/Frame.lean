import RiceVM.Memory

/-!
The frame stack. Frames lie one after the other in a flat buffer, each with a
sixteen-byte header (saved pc, caller's base, reserved) before its data area.
`frame` allocates a pending frame and `call` activates it.
-/
namespace RiceVM
open Memory

/-- Base of the module data ranges in the virtual address space. -/
def mpBase : Nat := 0x00800000
def mpStride : Nat := 0x00100000
def maxModules : Nat := 128
def mpLimit : Nat := mpBase + maxModules * mpStride

def frameHeaderSize : Nat := 16
/-- Frame offsets double as virtual addresses, so the stack ends where module data begins. -/
def maxFrameStackSize : Nat := mpBase

structure FrameStack where
  data : List Byte
  currentBase : Nat
  currentSize : Nat
  deriving DecidableEq, Repr

namespace FrameStack

def new : FrameStack := ⟨[], 0, 0⟩

/-- `Vec::resize` to a length with zero bytes. -/
def resize (data : List Byte) (n : Nat) : List Byte :=
  data.take n ++ List.replicate (n - data.length) 0

def pushEntry (fs : FrameStack) (dataAreaSize : Nat) (sentinelPc : Pc) : FrameStack :=
  let total := frameHeaderSize + dataAreaSize
  { data := writeWord (writeWord (resize fs.data total) 0 sentinelPc) 4 0
    currentBase := 0
    currentSize := total }

def currentDataOffset (fs : FrameStack) : Nat := fs.currentBase + frameHeaderSize

def allocPending (fs : FrameStack) (dataAreaSize : Nat) : Except ExecError (Nat × FrameStack) :=
  let newBase := max fs.data.length (fs.currentBase + fs.currentSize)
  let newEnd := newBase + (frameHeaderSize + dataAreaSize)
  if newEnd ≤ maxFrameStackSize then
    .ok (newBase + frameHeaderSize, { fs with data := resize fs.data newEnd })
  else
    .error (.other s!"stack overflow: frame of {dataAreaSize} bytes")

def activatePending (fs : FrameStack) (dataAreaOffset : Nat) (savedPc : Pc) :
    Except ExecError FrameStack :=
  if dataAreaOffset < frameHeaderSize ∨ dataAreaOffset > fs.data.length then
    .error (.other s!"invalid frame pointer: {dataAreaOffset}")
  else
    let newBase := dataAreaOffset - frameHeaderSize
    .ok { data := writeWord (writeWord fs.data newBase savedPc) (newBase + 4)
            (Word.ofUsize fs.currentBase)
          currentBase := newBase
          currentSize := fs.data.length - newBase }

/-- The saved pc of a popped frame and the stack below it. -/
def pop (fs : FrameStack) : Except ExecError (Pc × FrameStack) :=
  if fs.data.isEmpty then .error (.other "stack underflow")
  else
    let prevPc := readWord fs.data fs.currentBase
    let prevBase := (readWord fs.data (fs.currentBase + 4)).asUsize
    let data := fs.data.take fs.currentBase
    .ok (prevPc,
      if data.isEmpty then ⟨data, 0, 0⟩
      else if fs.currentBase ≥ prevBase then ⟨data, prevBase, fs.currentBase - prevBase⟩
      else ⟨data, 0, data.length⟩)

@[simp] theorem length_resize (data : List Byte) (n : Nat) : (resize data n).length = n := by
  simp only [resize, List.length_append, List.length_take, List.length_replicate]
  omega

theorem resize_of_le {data : List Byte} {n : Nat} (h : data.length ≤ n) :
    resize data n = data ++ List.replicate (n - data.length) 0 := by
  rw [resize, List.take_of_length_le h]

theorem allocPending_cases {fs fs' : FrameStack} {size off : Nat}
    (h : fs.allocPending size = .ok (off, fs')) :
    off = max fs.data.length (fs.currentBase + fs.currentSize) + frameHeaderSize ∧
      off + size ≤ maxFrameStackSize ∧
      fs' = { fs with data := resize fs.data (off + size) } := by
  simp only [allocPending] at h
  split at h
  · next hle =>
      cases h
      exact ⟨rfl, by omega, by rw [Nat.add_assoc]⟩
  · cases h

theorem activatePending_cases {fs fs' : FrameStack} {off : Nat} {pc : Pc}
    (h : fs.activatePending off pc = .ok fs') :
    frameHeaderSize ≤ off ∧ off ≤ fs.data.length ∧
      fs' = { data := writeWord (writeWord fs.data (off - frameHeaderSize) pc)
                (off - frameHeaderSize + 4) (Word.ofUsize fs.currentBase)
              currentBase := off - frameHeaderSize
              currentSize := fs.data.length - (off - frameHeaderSize) } := by
  unfold activatePending at h
  split at h
  · cases h
  · cases h
    exact ⟨by omega, by omega, rfl⟩

end FrameStack
end RiceVM
