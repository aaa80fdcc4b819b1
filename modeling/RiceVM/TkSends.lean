import RiceVM.Ops.TkCmd
import RiceVM.Channels

/-!
Strings that Tk commands put into the channels of the guest, between the guest's own transfers.
-/
namespace RiceVM
open Exec Ops

/-- The channel one command sends to. -/
def sendTarget (names : Text → Option HeapId) : List Text → List HeapId
  | first :: chanName :: _ =>
    if first.head? = some '.' then []
    else if first = "send".toList then (names chanName).toList
    else []
  | _ => []

/-- The channels a text sends to, one for each send. -/
def tkSends (names : Text → Option HeapId) (cmd : Text) : List HeapId :=
  let cmd := trim cmd
  if cmd = [] then []
  else if ';' ∈ cmd then
    (cmd.splitOn ';').flatMap fun sub => sendTarget names (shellSplit (trim (trim sub)))
  else sendTarget names (shellSplit cmd)

/-- Every channel that is sent to is there with nothing in it, and is sent to once. -/
def Clear (tk : Tk) (cmd : Text) (vm : VmState) : Prop :=
  (tkSends tk.namedChannels cmd).Nodup ∧
    ∀ c ∈ tkSends tk.namedChannels cmd, ∃ elemSize, vm.heap.chan c = some (elemSize, none)

theorem namedChannels_configureWidget (name : Text) (args : List Text) (tk : Tk) :
    (configureWidget name args tk).namedChannels = tk.namedChannels := by
  fun_induction configureWidget name args tk with
  | case1 _ _ _ _ _ ih => exact ih
  | case2 => rfl

theorem namedChannels_dispatchWidgetCmd (name : Text) (args : List Text) (tk : Tk) :
    (dispatchWidgetCmd name args tk).2.namedChannels = tk.namedChannels := by
  unfold dispatchWidgetCmd
  split
  · split
    · exact namedChannels_configureWidget _ _ _
    split
    · split <;> rfl
    · rfl
  · rfl

/-- What commands leave: the account of the channels, the names, and the channels they do not
send to. -/
structure TkKept (sends : List HeapId) (s t : VmState) (tk tk' : Tk) : Prop where
  delivers : Delivers s → Delivers t
  names : tk'.namedChannels = tk.namedChannels
  blocked : t.blockedChannel = s.blockedChannel
  others : ∀ d elemSize, d ∉ sends → s.heap.chan d = some (elemSize, none) →
    t.heap.chan d = some (elemSize, none)

section
variable {s t : VmState} {tk tk' : Tk} {result : Text}

theorem TkKept.refl (h : tk'.namedChannels = tk.namedChannels) : TkKept [] s s tk tk' :=
  ⟨id, h, rfl, fun _ _ _ hd => hd⟩

/-- A string into an empty channel. -/
theorem sendToNamedChannel_kept {name value : Text}
    (hclear : ∀ c ∈ (tk.namedChannels name).toList, ∃ elemSize, s.heap.chan c = some (elemSize, none))
    (h : sendToNamedChannel tk name value s = .ok () t) :
    TkKept (tk.namedChannels name).toList s t tk tk := by
  unfold sendToNamedChannel at h
  cases hname : tk.namedChannels name with
  | none =>
      rw [hname] at h
      cases h
      exact .refl rfl
  | some id =>
      rw [hname] at h hclear
      obtain ⟨elemSize, hch⟩ := hclear id (Option.mem_toList.mpr rfl)
      obtain ⟨strId, u, halloc, h⟩ := bind_eq_ok.mp h
      obtain ⟨heap, hheap, rfl⟩ := alloc_eq_ok halloc
      cases h
      have hkept : ∀ d ch, s.heap.chan d = some ch → heap.chan d = some ch := fun d ch hd => by
        obtain ⟨hnew, -, hget⟩ := Heap.alloc_cases hheap
        have hne : d ≠ strId := by
          rintro rfl
          rw [hnew] at hd
          exact absurd (Heap.lt_nextId_of_chan hd) (BitVec.lt_irrefl _)
        rw [Heap.chan, hget, if_neg hne]
        exact hd
      refine ⟨fun hs => ?_, rfl, rfl, fun d n hne hd => ?_⟩
      · have hplain : Delivers { s with heap := heap } :=
          hs.plain (Heap.plain_alloc hheap rfl) rfl
        exact (hplain.transfer (e := .put id _) (fun _ => rfl) (hkept id _ hch) (.put _)).same rfl rfl
      · have hother : d ≠ id := fun heq => hne (Option.mem_toList.mpr (heq ▸ rfl))
        change (heap.setPending id _).chan d = _
        rw [Heap.chan_setPending, if_neg hother, hkept d _ hd]

theorem sendTarget_other {names : Text → Option HeapId} {first : Text} {args : List Text}
    (h : first.head? = some '.' ∨ first ≠ "send".toList) :
    sendTarget names (first :: args) = [] := by
  cases args with
  | nil => rfl
  | cons chanName values =>
      rw [sendTarget]
      split
      · rfl
      · next hdot => exact if_neg (h.resolve_left hdot)

/-- A command that is neither a widget's nor a `send` only answers. -/
theorem dispatchParts_answers {first : Text} {args : List Text} (hdot : first.head? ≠ some '.')
    (hsend : first ≠ "send".toList)
    (h : dispatchParts tk (first :: args) s = .ok (result, tk') t) : t = s ∧ tk' = tk := by
  unfold dispatchParts at h
  dsimp only at h
  rw [if_neg hdot, if_neg hsend] at h
  split at h
  · match args, h with
    | [], h | [what], h =>
        cases h
        exact ⟨rfl, rfl⟩
    | what :: name :: rest, h =>
        dsimp only at h
        split at h <;> cases h <;> exact ⟨rfl, rfl⟩
  · cases h
    exact ⟨rfl, rfl⟩

/-- One command. -/
theorem dispatchParts_kept {parts : List Text}
    (hclear : ∀ c ∈ sendTarget tk.namedChannels parts, ∃ elemSize,
      s.heap.chan c = some (elemSize, none))
    (h : dispatchParts tk parts s = .ok (result, tk') t) :
    TkKept (sendTarget tk.namedChannels parts) s t tk tk' := by
  cases parts with
  | nil =>
      cases h
      exact .refl rfl
  | cons first args =>
      by_cases hdot : first.head? = some '.'
      · unfold dispatchParts at h
        dsimp only at h
        rw [if_pos hdot] at h
        obtain ⟨hpair, rfl⟩ := Res.ok.inj h
        have hnames := namedChannels_dispatchWidgetCmd first args tk
        rw [hpair] at hnames
        rw [sendTarget_other (.inl hdot)]
        exact .refl hnames
      by_cases hsend : first = "send".toList
      · unfold dispatchParts at h
        dsimp only at h
        rw [if_neg hdot, if_pos hsend] at h
        cases args with
        | nil =>
            cases h
            exact .refl rfl
        | cons chanName values =>
            have htarget : sendTarget tk.namedChannels (first :: chanName :: values) =
                (tk.namedChannels chanName).toList := by
              rw [sendTarget, if_neg hdot, if_pos hsend]
            obtain ⟨_, u, hrun, h⟩ := bind_eq_ok.mp h
            cases h
            rw [htarget] at hclear ⊢
            exact sendToNamedChannel_kept hclear hrun
      · obtain ⟨rfl, rfl⟩ := dispatchParts_answers hdot hsend h
        rw [sendTarget_other (.inr hsend)]
        exact .refl rfl

theorem TkKept.trans {sends later : List HeapId} {u : VmState} {tk'' : Tk}
    (a : TkKept sends s t tk tk') (b : TkKept later t u tk' tk'') :
    TkKept (sends ++ later) s u tk tk'' where
  delivers hs := b.delivers (a.delivers hs)
  names := b.names.trans a.names
  blocked := b.blocked.trans a.blocked
  others d n hd hch := by
    rw [List.mem_append, not_or] at hd
    exact b.others d n hd.2 (a.others d n hd.1 hch)

/-- The commands of a text, one after the other. -/
theorem dispatchEach_kept {subs : List Text} {lastResult : Text}
    (hnodup : (subs.flatMap fun sub =>
      sendTarget tk.namedChannels (shellSplit (trim (trim sub)))).Nodup)
    (hclear : ∀ c ∈ subs.flatMap fun sub =>
      sendTarget tk.namedChannels (shellSplit (trim (trim sub))), ∃ elemSize,
        s.heap.chan c = some (elemSize, none))
    (h : dispatchEach tk lastResult subs s = .ok (result, tk') t) :
    TkKept (subs.flatMap fun sub => sendTarget tk.namedChannels (shellSplit (trim (trim sub))))
      s t tk tk' := by
  induction subs generalizing s tk lastResult with
  | nil =>
      cases h
      exact .refl rfl
  | cons sub subs ih =>
      rw [List.flatMap_cons] at hnodup hclear ⊢
      obtain ⟨-, hrest, hapart⟩ := List.nodup_append.mp hnodup
      unfold dispatchEach at h
      dsimp only at h
      split at h
      · next hempty =>
          have hnone : sendTarget tk.namedChannels (shellSplit (trim (trim sub))) = [] := by
            rw [hempty]
            rfl
          rw [hnone, List.nil_append] at hclear ⊢
          exact ih hrest hclear h
      · obtain ⟨⟨result₁, tk₁⟩, u, hfirst, h⟩ := bind_eq_ok.mp h
        have hkept := dispatchParts_kept (fun c hc => hclear c (List.mem_append_left _ hc)) hfirst
        refine hkept.trans ?_
        rw [← hkept.names] at hrest hclear ⊢
        refine ih hrest (fun c hc => ?_) h
        obtain ⟨n, hch⟩ := hclear c (List.mem_append_right _ hc)
        exact ⟨n, hkept.others c n (fun hmem => hapart c hmem c (hkept.names ▸ hc) rfl) hch⟩

theorem dispatchTkCmd_kept {cmd : Text} (hclear : Clear tk cmd s)
    (h : dispatchTkCmd tk cmd s = .ok (result, tk') t) :
    TkKept (tkSends tk.namedChannels cmd) s t tk tk' := by
  obtain ⟨hnodup, hempty⟩ := hclear
  unfold dispatchTkCmd at h
  unfold tkSends at hnodup hempty ⊢
  dsimp only at h hnodup hempty ⊢
  split at h
  · next hnil =>
      cases h
      rw [if_pos hnil]
      exact .refl rfl
  · next hsome =>
      rw [if_neg hsome] at hnodup hempty ⊢
      split at h
      · next hmany =>
          rw [if_pos hmany] at hnodup hempty ⊢
          exact dispatchEach_kept hnodup hempty h
      · next hone =>
          rw [if_neg hone] at hnodup hempty ⊢
          exact dispatchParts_kept hempty h

end

/-- A run of the machine with Tk commands between its turns, those that are allowed where they
come. Channels are given names at any time. -/
inductive TkRun (Allowed : Tk → Text → VmState → Prop) : VmState × Nat → Prop
  | initial {vm : VmState} : Initial vm → TkRun Allowed (vm, 0)
  | turn {s t : VmState × Nat} : TkRun Allowed s → Turn s t → TkRun Allowed t
  | cmd {s t : VmState} {q : Nat} {tk tk' : Tk} {text result : Text} : TkRun Allowed (s, q) →
      Allowed tk text s → dispatchTkCmd tk text s = .ok (result, tk') t → TkRun Allowed (t, q)

/-- The states such a run is observed in. -/
inductive TkObserved (Allowed : Tk → Text → VmState → Prop) : VmState → Prop
  | top {vm : VmState} {q : Nat} : TkRun Allowed (vm, q) → TkObserved Allowed vm
  | finished {s t : VmState} {q fuel : Nat} {env : Env} : TkRun Allowed (s, q) →
      runIter env (nestedAt env fuel) q s = .ok none t → TkObserved Allowed t
  | fault {s t : VmState} {q fuel : Nat} {env : Env} {e : ExecError} : TkRun Allowed (s, q) →
      runIter env (nestedAt env fuel) q s = .error e t → TkObserved Allowed t

theorem TkRun.of_reachable {Allowed : Tk → Text → VmState → Prop} {s : VmState × Nat}
    (h : Reachable s) : TkRun Allowed s := by
  induction h with
  | initial h₀ => exact .initial h₀
  | turn _ hturn ih => exact .turn ih hturn

theorem TkRun.delivers {s : VmState × Nat} (h : TkRun Clear s) :
    s.1.blockedChannel = none ∧ Delivers s.1 := by
  induction h with
  | initial h₀ =>
      obtain ⟨modules, gcEnabled, module, args, _, h₀⟩ := h₀
      have hp := VmState.pristine_withArgs h₀
      exact ⟨hp.blocked, .pristine hp⟩
  | @turn s t _ hturn ih =>
      obtain ⟨env, fuel, hrun⟩ := hturn
      have ht := wp_ok (deliverRules.runIter_spec env fuel s.2 s.1) hrun ih.1
      exact ⟨ht.blockedChannel ih.1, ih.2.turn ht⟩
  | cmd _ hclear hrun ih =>
      have hkept := dispatchTkCmd_kept hclear hrun
      exact ⟨hkept.blocked.trans ih.1, hkept.delivers ih.2⟩

theorem TkObserved.delivers {vm : VmState} (h : TkObserved Clear vm) : Delivers vm := by
  cases h with
  | top hr => exact hr.delivers.2
  | finished hr hrun =>
      obtain ⟨hb, hd⟩ := hr.delivers
      exact hd.turn (wp_ok (deliverRules.runIter_spec _ _ _ _) hrun hb)
  | fault hr hrun =>
      obtain ⟨hb, hd⟩ := hr.delivers
      exact hd.fault (wp_error (deliverRules.runIter_spec _ _ _ _) hrun hb)

/-- The channel that `sendThenReceive` makes, under the name `c`. -/
def namedC : Tk where
  namedChannels name := if name = ['c'] then some 0x10000005 else none
  widgetProps := []

/-- What a text of commands leaves after the channel was made. -/
def afterCmd (text : Text) (p : VmState → VmState → Bool) : Bool :=
  (sendThenReceive.after .bare 3 1).any fun s =>
    match dispatchTkCmd namedC text s.1 with
    | .ok _ t => p s.1 t
    | _ => false

theorem exists_afterCmd {A : Tk → Text → VmState → Prop} {text : Text}
    {p : VmState → VmState → Bool} (h : afterCmd text p = true)
    (hallowed : ∀ s t, p s t = true → A namedC text s) :
    ∃ s t, TkObserved A t ∧ p s t = true := by
  obtain ⟨s, hreach, htest⟩ := Module.reachable_after rfl h
  cases hrun : dispatchTkCmd namedC text s.1 with
  | ok r t =>
      rw [hrun] at htest
      exact ⟨s.1, t, .top (.cmd (.of_reachable hreach) (hallowed _ _ htest) hrun), htest⟩
  | error | panic | diverge =>
      rw [hrun] at htest
      cases htest

end RiceVM
