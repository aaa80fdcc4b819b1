import RiceVM.Ops.Text
import RiceVM.Variables

/-!
Strings as values. String objects are shared between variables and `insc` edits them in place;
with every variable counted, an edit in place is an edit of the one variable that holds the
string.
-/
namespace RiceVM
open Exec Memory Ops

namespace Heap

/-- The text a pointer stands for. -/
def IsText (h : Heap) (id : HeapId) (s : String) : Prop :=
  id = nil ∧ s = "" ∨ ∃ obj, h.get id = some obj ∧ obj.data = .str s

variable {h h' : Heap} {id : HeapId} {s : String}

theorem getString_cases (hs : IsText h id s) :
    id = nil ∧ h.getString id = none ∧ s = "" ∨ id ≠ nil ∧ h.getString id = some s := by
  rcases hs with ⟨rfl, rfl⟩ | ⟨obj, hget, hdata⟩
  · refine .inl ⟨rfl, ?_, rfl⟩
    rw [getString, get_nil]
  · refine .inr ⟨?_, ?_⟩
    · rintro rfl
      rw [get_nil] at hget
      cases hget
    · obtain ⟨_, _, _, data⟩ := obj
      cases hdata
      rw [getString, hget]

theorem IsText.getD (hs : IsText h id s) : (h.getString id).getD "" = s := by
  rcases getString_cases hs with ⟨-, hnone, rfl⟩ | ⟨-, hsome⟩
  · rw [hnone]
    rfl
  · rw [hsome]
    rfl

theorem isText_alloc {typeId : BitVec 32} {trace : Option TraceMap}
    (ha : h.alloc typeId (.str s) trace = some (id, h')) : IsText h' id s := by
  have hthere := (alloc_cases ha).2.2 id
  rw [(alloc_cases ha).1, if_pos rfl, ← (alloc_cases ha).1] at hthere
  exact .inr ⟨_, hthere, rfl⟩

end Heap

theorem readable_isText : Readable Heap.IsText where
  grows hs hg := by
    rcases hs with hnil | ⟨obj, hget, hdata⟩
    · exact .inl hnil
    · obtain ⟨obj', hget', hsame⟩ := hg _ _ hget
      exact .inr ⟨obj', hget', hsame.trans hdata⟩
  release hs _ hid := by
    rcases hs with hnil | ⟨obj, hget, hdata⟩
    · exact .inl hnil
    · rcases hid with rfl | hid
      · rw [Heap.get_nil] at hget
        cases hget
      · obtain ⟨obj', hobj'⟩ := Option.isSome_iff_exists.mp hid
        obtain ⟨old, hold, hsame⟩ := Heap.data_decRef hobj'
        rw [hget] at hold
        cases hold
        exact .inr ⟨obj', hobj', hsame.trans hdata⟩

/-- The variables in some slots of the frame stack and the text of each. -/
def HoldsTexts (slots : Finset Nat) (vm : VmState) (texts : Nat → String) : Prop :=
  SlotsHold Heap.IsText slots vm texts

variable {vm vm' : VmState} {slots : Finset Nat} {texts : Nat → String} {a b c : Nat} {s : String}

/-! ### Instructions -/

theorem storeString_slot (hdst : vm.dst = .frame b) (heap : Heap) (id : HeapId) :
    storeString id { vm with heap } =
      .ok () (vm.storeSlot (heap.decRef (readWord vm.frames.data b)) b id) := by
  have hdst' : ({ vm with heap } : VmState).dst = .frame b := hdst
  unfold storeString
  rw [bind_ok (dstPtr_slot hdst'), bind_ok (setDstPtr_slot hdst heap id)]
  rfl

theorem alloc_storeString (hdst : vm.dst = .frame b)
    (h : (do storeString (← alloc 0 (.str s)) : VM Unit) vm = .ok () vm') : ∃ id heap,
    vm.heap.alloc 0 (.str s) none = some (id, heap) ∧
      vm' = vm.storeSlot (heap.decRef (readWord vm.frames.data b)) b id := by
  obtain ⟨id, u, hid, h⟩ := bind_eq_ok.mp h
  obtain ⟨heap, halloc, rfl⟩ := alloc_eq_ok hid
  rw [storeString_slot hdst] at h
  cases h
  exact ⟨id, heap, halloc, rfl⟩

namespace HoldsTexts

/-- A variable takes a string that was made for it. -/
theorem fresh (h : HoldsTexts slots vm texts) (hdst : vm.dst = .frame b) (hb : b ∈ slots)
    (hrun : (do storeString (← alloc 0 (.str s)) : VM Unit) vm = .ok () vm') :
    HoldsTexts slots vm' (Function.update texts b s) := by
  obtain ⟨id, heap, halloc, rfl⟩ := alloc_storeString hdst hrun
  have hcounted := h.counted
  rw [← zero_add (pointers _ _)] at hcounted
  exact h.store readable_isText hb (Heap.grows_alloc halloc) (Heap.isText_alloc halloc)
    (Heap.Covered.allocPtr hcounted halloc)

theorem empty (h : HoldsTexts slots vm texts) (hdst : vm.dst = .frame b) (hb : b ∈ slots)
    (hrun : storeString nil vm = .ok () vm') : HoldsTexts slots vm' (Function.update texts b "") := by
  cases (storeString_slot hdst vm.heap nil).symm.trans hrun
  have hcounted := h.counted
  rw [← zero_add (pointers _ _)] at hcounted
  exact h.store readable_isText hb (fun i obj hobj => ⟨obj, hobj, rfl⟩) (.inl ⟨rfl, rfl⟩) hcounted

theorem addc (h : HoldsTexts slots vm texts) (hsrc : vm.src = .frame a) (ha : a ∈ slots)
    (hmid : vm.mid = .frame c ∨ vm.mid = .none ∧ c = b) (hc : c ∈ slots)
    (hdst : vm.dst = .frame b) (hb : b ∈ slots) (hrun : opAddc vm = .ok () vm') :
    HoldsTexts slots vm' (Function.update texts b (texts c ++ texts a)) := by
  have hleft : midOrDstPtr vm = .ok (readWord vm.frames.data c) vm := by
    unfold midOrDstPtr
    rw [bind_ok (get_apply vm)]
    rcases hmid with hmid | ⟨hmid, rfl⟩
    · rw [if_neg (by rw [hmid]; intro h; cases h)]
      change Res.ok (vm.readWordAt vm.mid vm.immMid) vm = _
      rw [hmid]
      rfl
    · rw [if_pos hmid]
      exact dstPtr_slot hdst
  unfold opAddc at hrun
  rw [bind_ok (srcPtr_slot hsrc), bind_ok hleft, bind_ok (get_apply vm)] at hrun
  have hsecond := h.reads a ha
  have hfirst := h.reads c hc
  split at hrun
  · next hnone =>
      obtain ⟨hnone₁, hnone₂⟩ := Bool.and_eq_true_iff.mp hnone
      have hempty {p : HeapId} {t : String} (ht : vm.heap.IsText p t)
          (hp : (vm.heap.getString p).isNone = true) : t = "" := by
        rcases Heap.getString_cases ht with ⟨-, -, ht⟩ | ⟨-, hsome⟩
        · exact ht
        · rw [hsome] at hp
          cases hp
      rw [hempty hfirst hnone₁, hempty hsecond hnone₂]
      exact h.empty hdst hb hrun
  · rw [hfirst.getD, hsecond.getD] at hrun
    exact h.fresh hdst hb hrun

theorem slicec (h : HoldsTexts slots vm texts) (hdst : vm.dst = .frame b) (hb : b ∈ slots)
    (hrun : opSlicec vm = .ok () vm') :
    HoldsTexts slots vm' (Function.update texts b (sliceString (texts b)
      (vm.readWordAt vm.src vm.immSrc).asUsize (vm.readWordAt vm.mid vm.immMid).asUsize)) := by
  unfold opSlicec at hrun
  rw [bind_ok (srcWord_apply vm), bind_ok (midWord_apply vm), bind_ok (dstPtr_slot hdst)] at hrun
  generalize (vm.readWordAt vm.src vm.immSrc).asUsize = start at hrun
  generalize (vm.readWordAt vm.mid vm.immMid).asUsize = stop at hrun
  rcases Heap.getString_cases (h.reads b hb) with ⟨hnil, -, htext⟩ | ⟨hne, hsome⟩
  · rw [if_pos hnil] at hrun
    split at hrun
    · next hzero =>
        cases hrun
        have hslice : sliceString (texts b) start stop = texts b := by
          rw [htext, hzero.1, hzero.2]
          rfl
        rw [hslice, Function.update_eq_self]
        exact h
    · cases hrun
  · rw [if_neg hne, bind_ok (get_apply vm), hsome] at hrun
    change (if stop < start ∨ (texts b).length < stop then _ else _ : VM Unit) vm = _ at hrun
    split at hrun
    · cases hrun
    · split at hrun
      · next hzero =>
          have hslice : sliceString (texts b) start stop = "" := by
            rw [sliceString, hzero, List.take_zero]
          rw [hslice]
          exact h.empty hdst hb hrun
      · exact h.fresh hdst hb hrun

/-- An edit of a string that one variable holds leaves the others. -/
theorem edit (h : HoldsTexts slots vm texts) (hb : b ∈ slots) {obj : HeapObject}
    (hget : vm.heap.get (readWord vm.frames.data b) = some obj) (hdata : obj.data = .str (texts b))
    (hcount : ¬ 1 < obj.refCount.toNat) (s : String) :
    HoldsTexts slots { vm with heap := vm.heap.setString (readWord vm.frames.data b) s }
      (Function.update texts b s) := by
  generalize hp : readWord vm.frames.data b = p at *
  have hnil : p ≠ nil := by
    rintro rfl
    rw [Heap.get_nil] at hget
    cases hget
  have hsole : ∀ a ∈ slots, a ≠ b → readWord vm.frames.data a ≠ p := by
    intro a ha hab hap
    have hle := h.counted p
    rw [pointers_of_mem _ hb, pointers_of_mem _ (Finset.mem_erase.mpr ⟨hab, ha⟩), hap, hp,
      Heap.refTo, if_neg hnil, Heap.refs, hget, Option.elim_some] at hle
    simp only [Multiset.count_add, Multiset.count_singleton_self] at hle
    omega
  refine ⟨h.inside, h.apart, fun a ha => ?_, ?_⟩
  · change (vm.heap.setString p s).IsText (readWord vm.frames.data a) _
    by_cases hab : a = b
    · subst hab
      rw [hp, Function.update_self]
      refine .inr ⟨{ obj with data := .str s }, ?_, rfl⟩
      rw [Heap.setString, Heap.get_update, if_pos rfl, hget]
      rfl
    · rw [Function.update_of_ne hab]
      refine (h.reads a ha).imp_right fun htext => ?_
      obtain ⟨other, hother, htext⟩ := htext
      refine ⟨other, ?_, htext⟩
      rw [Heap.setString, Heap.get_update, if_neg (hsole a ha hab), hother]
  · refine Heap.Covered.write h.counted fun old hold => ⟨rfl, ?_⟩
    rw [Heap.lookup_of_get hget] at hold
    cases hold
    rw [hdata]
    rfl

/-- A shared string is copied before it is edited. -/
theorem editCopy (h : HoldsTexts slots vm texts) (hb : b ∈ slots) {heap : Heap} {id : HeapId}
    {typeId : BitVec 32} {old : HeapObject}
    (hget : (vm.heap.decRef (readWord vm.frames.data b)).get (readWord vm.frames.data b) = some old)
    (halloc : (vm.heap.decRef (readWord vm.frames.data b)).alloc typeId (.str (texts b)) none =
      some (id, heap)) (s : String) : id ≠ readWord vm.frames.data b ∧
    HoldsTexts slots (vm.storeSlot (heap.setString id s) b id) (Function.update texts b s) := by
  have hfresh : (vm.heap.decRef (readWord vm.frames.data b)).get id = none := by
    rw [(Heap.alloc_cases halloc).1]
    exact get_nextId _
  have hthere := (Heap.alloc_cases halloc).2.2 id
  rw [(Heap.alloc_cases halloc).1, if_pos rfl, ← (Heap.alloc_cases halloc).1] at hthere
  have hcounted := h.counted
  rw [pointers_of_mem _ hb] at hcounted
  have hreleased := hcounted.releasePtr
  refine ⟨?_, h.replace hb ?_ (fun a ha hab => ?_) ?_⟩
  · rintro rfl
    rw [hfresh] at hget
    cases hget
  · refine .inr ⟨⟨1, typeId, none, .str s⟩, ?_, rfl⟩
    rw [Heap.setString, Heap.get_update, if_pos rfl, hthere]
    rfl
  · have halive := hreleased
    rw [pointers_of_mem _ (Finset.mem_erase.mpr ⟨hab, ha⟩)] at halive
    have htext := readable_isText.release (h.reads a ha) hreleased halive.alive
    refine htext.imp_right fun htext => ?_
    obtain ⟨other, hother, hdata⟩ := htext
    obtain ⟨other', hother', hsame⟩ := Heap.grows_alloc halloc _ _ hother
    refine ⟨other', ?_, hsame.trans hdata⟩
    have hne : readWord vm.frames.data a ≠ id := by
      rintro rfl
      rw [hfresh] at hother
      cases hother
    rw [Heap.setString, Heap.get_update, if_neg hne, hother']
  · rw [← zero_add (pointers _ _)] at hreleased
    have hcovered := Heap.Covered.allocPtr hreleased halloc
    refine hcovered.write fun obj hobj => ⟨rfl, ?_⟩
    rw [Heap.lookup_of_get hthere] at hobj
    cases hobj
    rfl

theorem insc (h : HoldsTexts slots vm texts) (hdst : vm.dst = .frame b) (hb : b ∈ slots)
    (hrun : opInsc vm = .ok () vm') :
    HoldsTexts slots vm' (Function.update texts b (replaceChar (texts b)
      (vm.readWordAt vm.mid vm.immMid).asUsize (charOfRune (vm.readWordAt vm.src vm.immSrc)))) := by
  unfold opInsc at hrun
  rw [bind_ok (srcWord_apply vm), bind_ok (midWord_apply vm), bind_ok (dstPtr_slot hdst)] at hrun
  generalize (vm.readWordAt vm.mid vm.immMid).asUsize = index at hrun
  generalize charOfRune (vm.readWordAt vm.src vm.immSrc) = ch at hrun
  rcases h.reads b hb with ⟨hnil, htext⟩ | ⟨obj, hget, hdata⟩
  · rw [if_pos hnil] at hrun
    obtain ⟨id, u, hid, hrun⟩ := bind_eq_ok.mp hrun
    obtain ⟨heap, halloc, rfl⟩ := alloc_eq_ok hid
    cases hrun.symm.trans (setDstPtr_slot hdst heap id)
    rw [htext]
    have hcounted := h.counted
    rw [pointers_of_mem _ hb, hnil, Heap.refTo, if_pos rfl] at hcounted
    exact h.replace hb (Heap.isText_alloc halloc)
      (fun a ha _ => readable_isText.grows (h.reads a ha) (Heap.grows_alloc halloc))
      (Heap.Covered.allocPtr hcounted halloc)
  · have hne : readWord vm.frames.data b ≠ nil := by
      intro hnil
      rw [hnil, Heap.get_nil] at hget
      cases hget
    obtain ⟨count, typeId, trace, data⟩ := obj
    cases hdata
    rw [if_neg hne] at hrun
    obtain ⟨⟨newId, s⟩, u, hcow, hrun⟩ := bind_eq_ok.mp hrun
    unfold cowString at hcow
    rw [bind_ok (get_apply vm), hget] at hcow
    change (if 1 < count then _ else _ : VM (HeapId × String)) vm = _ at hcow
    split at hcow
    · next hcount =>
        unfold modifyHeap at hcow
        rw [bind_ok (modify_apply _ _)] at hcow
        obtain ⟨id, v, hid, hcow⟩ := bind_eq_ok.mp hcow
        obtain ⟨heap, halloc, rfl⟩ := alloc_eq_ok hid
        cases hcow
        have hold := Heap.decRef_of_keep hget hcount
        have hstill : ∃ old, (vm.heap.decRef (readWord vm.frames.data b)).get
            (readWord vm.frames.data b) = some old := by
          rw [hold, Heap.get_update, if_pos rfl, hget]
          exact ⟨_, rfl⟩
        obtain ⟨old, hstill⟩ := hstill
        obtain ⟨hfresh, hheld⟩ := h.editCopy hb hstill halloc (replaceChar (texts b) index ch)
        dsimp only at hrun
        unfold modifyHeap at hrun
        rw [bind_ok (modify_apply _ _)] at hrun
        rw [if_pos hfresh] at hrun
        cases hrun.symm.trans (setDstPtr_slot hdst (heap.setString newId _) newId)
        exact hheld
    · next hcount =>
        cases hcow
        dsimp only at hrun
        unfold modifyHeap at hrun
        rw [bind_ok (modify_apply _ _)] at hrun
        rw [if_neg (fun hne => hne rfl)] at hrun
        cases hrun
        exact h.edit hb hget rfl hcount _

end HoldsTexts

/-! ### Runs -/

/-- What an instruction does to the strings of a frame, by what it does to the machine. -/
inductive StringStep (slots : Finset Nat) :
    VmState × (Nat → String) → VmState × (Nat → String) → Prop
  /-- Operands are resolved, and other words of the frame change. -/
  | other {vm vm' : VmState} {texts : Nat → String} : vm'.heap = vm.heap →
      vm'.frames.data.length = vm.frames.data.length →
      (∀ a ∈ slots, readWord vm'.frames.data a = readWord vm.frames.data a) →
      StringStep slots (vm, texts) (vm', texts)
  /-- A string from elsewhere, such as a literal in the module's data, or none. -/
  | load {vm vm' : VmState} {texts : Nat → String} {b : Nat} {s : String} :
      vm.heap.IsText (vm.readWordAt vm.src vm.immSrc) s → vm.dst = .frame b → b ∈ slots →
      opMovp vm = .ok () vm' → StringStep slots (vm, texts) (vm', Function.update texts b s)
  | copy {vm vm' : VmState} {texts : Nat → String} {a b : Nat} : vm.src = .frame a → a ∈ slots →
      vm.dst = .frame b → b ∈ slots → opMovp vm = .ok () vm' →
      StringStep slots (vm, texts) (vm', Function.update texts b (texts a))
  | addc {vm vm' : VmState} {texts : Nat → String} {a b c : Nat} : vm.src = .frame a → a ∈ slots →
      vm.mid = .frame c ∨ vm.mid = .none ∧ c = b → c ∈ slots → vm.dst = .frame b → b ∈ slots →
      opAddc vm = .ok () vm' →
      StringStep slots (vm, texts) (vm', Function.update texts b (texts c ++ texts a))
  | slicec {vm vm' : VmState} {texts : Nat → String} {b : Nat} : vm.dst = .frame b → b ∈ slots →
      opSlicec vm = .ok () vm' →
      StringStep slots (vm, texts) (vm', Function.update texts b (sliceString (texts b)
        (vm.readWordAt vm.src vm.immSrc).asUsize (vm.readWordAt vm.mid vm.immMid).asUsize))
  | insc {vm vm' : VmState} {texts : Nat → String} {b : Nat} : vm.dst = .frame b → b ∈ slots →
      opInsc vm = .ok () vm' →
      StringStep slots (vm, texts) (vm', Function.update texts b (replaceChar (texts b)
        (vm.readWordAt vm.mid vm.immMid).asUsize (charOfRune (vm.readWordAt vm.src vm.immSrc))))

theorem HoldsTexts.step {s t : VmState × (Nat → String)} (h : HoldsTexts slots s.1 s.2)
    (hstep : StringStep slots s t) : HoldsTexts slots t.1 t.2 := by
  cases hstep with
  | other hheap hlength hwords => exact h.congr hheap hlength hwords
  | @load vm vm' texts b s hs hdst hb hrun =>
      have hread : srcPtr vm = .ok (vm.readWordAt vm.src vm.immSrc) vm := rfl
      unfold opMovp at hrun
      rw [bind_ok hread] at hrun
      refine h.move readable_isText hdst hb hs ?_ hrun
      rcases hs with ⟨hnil, -⟩ | ⟨obj, hget, -⟩
      · exact .inl hnil
      · exact .inr (by rw [hget]; rfl)
  | copy hsrc ha hdst hb hrun => exact SlotsHold.copy h readable_isText hsrc ha hdst hb hrun
  | addc hsrc ha hmid hc hdst hb hrun => exact h.addc hsrc ha hmid hc hdst hb hrun
  | slicec hdst hb hrun => exact h.slicec hdst hb hrun
  | insc hdst hb hrun => exact h.insc hdst hb hrun

/-- Whatever strings are made of strings, each variable reads as the sequence of characters that
was last put into it. Concatenations and slices are those of sequences, and an edit in place is
seen through no other variable that shares the string. -/
theorem strings_are_values {s t : VmState × (Nat → String)} (hs : HoldsTexts slots s.1 s.2)
    (hrun : Relation.ReflTransGen (StringStep slots) s t) :
    HoldsTexts slots t.1 t.2 ∧ ∀ a ∈ slots, t.1.src = .frame a →
      opLenc t.1 = setDstWord (BitVec.ofNat 32 (t.2 a).length) t.1 ∧
      ∀ ch, (t.2 a).toList[(t.1.readWordAt t.1.mid t.1.immMid).asUsize]? = some ch →
        opIndc t.1 = setDstWord ch.val.toBitVec t.1 := by
  have ht : HoldsTexts slots t.1 t.2 := by
    induction hrun with
    | refl => exact hs
    | tail _ hstep ih => exact ih.step hstep
  refine ⟨ht, fun a ha hsrc => ⟨?_, fun ch hch => ?_⟩⟩
  · unfold opLenc
    rw [bind_ok (srcPtr_slot hsrc), bind_ok (get_apply _)]
    rcases Heap.getString_cases (ht.reads a ha) with ⟨-, hnone, htext⟩ | ⟨-, hsome⟩
    · rw [hnone, htext]
      rfl
    · rw [hsome]
      rfl
  · unfold opIndc
    rw [bind_ok (srcPtr_slot hsrc), bind_ok (midWord_apply _), bind_ok (get_apply _)]
    rcases Heap.getString_cases (ht.reads a ha) with ⟨-, -, htext⟩ | ⟨-, hsome⟩
    · rw [htext] at hch
      cases hch
    · rw [hsome]
      dsimp only
      rw [hch]

/-- A character put into an empty string. -/
theorem strings_are_values_inserted : ∃ (s t : VmState × (Nat → String)),
    HoldsTexts {0, 4} s.1 s.2 ∧ s.2 0 = "" ∧ t.2 0 = "a" ∧ opLenc t.1 = setDstWord 1 t.1 := by
  obtain ⟨vm, -⟩ : ∃ vm, VmState.withArgs [] true (.ofCode "main" [] 0) [] = some vm := ⟨_, rfl⟩
  let s : VmState := { vm with
    heap := .new, frames := { vm.frames with data := List.replicate 8 0 }
    src := .immediate, immSrc := 97, mid := .immediate, immMid := 0, dst := .frame 0 }
  have hs : HoldsTexts {0, 4} s fun _ => "" := by
    refine ⟨show ∀ a ∈ ({0, 4} : Finset Nat), a + 4 ≤ 8 by decide, by decide, fun a ha => ?_,
      fun id => Nat.zero_le _⟩
    refine .inl ⟨?_, rfl⟩
    rcases Finset.mem_insert.mp ha with rfl | ha
    · rfl
    · cases Finset.mem_singleton.mp ha
      rfl
  have hchar : replaceChar "" (0 : Word).asUsize (charOfRune 97) = "a" := by decide
  obtain ⟨heap, halloc⟩ := Heap.exists_alloc (h := s.heap)
    (show Heap.new.nextId < Heap.new.nextId + 1 by decide) 0 (.str "a")
  have halloc' : s.heap.alloc 0 (.str (replaceChar "" (0 : Word).asUsize (charOfRune 97))) none =
      some (s.heap.nextId, heap) := by
    rw [hchar]
    exact halloc
  have hinsc : opInsc s = .ok () (s.storeSlot heap 0 s.heap.nextId) :=
    (opInsc_nil rfl halloc').trans (setDstPtr_slot rfl heap s.heap.nextId)
  let texts : Nat → String :=
    Function.update (fun _ => "") 0 (replaceChar "" (0 : Word).asUsize (charOfRune 97))
  have hedit : StringStep {0, 4} (s, fun _ => "") (s.storeSlot heap 0 s.heap.nextId, texts) :=
    .insc rfl (by decide) hinsc
  let t : VmState := { s.storeSlot heap 0 s.heap.nextId with src := .frame 0 }
  have hother : StringStep {0, 4} (s.storeSlot heap 0 s.heap.nextId, texts) (t, texts) :=
    .other rfl rfl fun _ _ => rfl
  obtain ⟨-, hreads⟩ := strings_are_values hs ((Relation.ReflTransGen.single hedit).tail hother)
  have hlength : opLenc t = setDstWord (BitVec.ofNat 32 (texts 0).length) t :=
    (hreads 0 (by decide) rfl).1
  have htext : texts 0 = "a" := hchar
  rw [htext] at hlength
  exact ⟨(s, fun _ => ""), (t, texts), hs, rfl, htext, hlength⟩

end RiceVM
