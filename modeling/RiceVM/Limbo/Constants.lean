import Mathlib.Data.List.Chain
import RiceVM.Limbo.Fold

/-!
Constants by the place they are declared at. Four loops walk `con` declarations, each with its own
count of `iota` and its own view of the constants before: the top level of the compiled file, the
top level of an included file, an interface block of the compiled file, and one of an included
file.
-/
namespace RiceVM.Limbo

/-- A constant. The names of one `con` declaration are constants with one span. -/
structure ConstDecl where
  name : String
  value : Expr
  span : Nat

/-- Counts up within one declaration and restarts at the next. -/
structure IotaCounter where
  group : Option Nat := none
  value : Big := 0

def IotaCounter.next (counter : IotaCounter) (span : Nat) : Big × IotaCounter :=
  let value := if counter.group = some span then counter.value else 0
  (value, ⟨some span, value + 1⟩)

/-- What the folders know of a program besides the constants they collect. -/
structure Surroundings where
  floats : Floats
  /-- The names the compiled file knows from elsewhere: imports, included files, and the interface
  it implements. -/
  outer : String → Option ConstVal
  /-- The constants of other interfaces. -/
  qualified : String → String → Option ConstVal

namespace Surroundings

variable (e : Surroundings)

/-- A name in the compiled file: a constant collected so far, which may be an error, or else one
from elsewhere. -/
def constValue (consts : String → Option Folded) (name : String) : Option ConstVal :=
  match consts name with
  | some v => v.toOption
  | none => e.outer name

/-- The constants of the compiled file's top level. -/
def collectConsts : List ConstDecl → IotaCounter → (String → Option Folded) →
    String → Option Folded
  | [], _, consts => consts
  | c :: decls, iota, consts =>
    let (i, iota) := iota.next c.span
    let value := foldWith e.floats true (e.constValue consts) e.qualified i c.value
    collectConsts decls iota (Function.update consts c.name (some value))

/-- The constants of an interface block of the compiled file. Only those of the interface it
implements are in scope for the constants that follow. -/
def collectInterface (implemented : Bool) : List ConstDecl → IotaCounter →
    (String → Option Folded) → (String → Option Folded) → String → Option Folded
  | [], _, _, members => members
  | c :: decls, iota, consts, members =>
    let (i, iota) := iota.next c.span
    let value := foldWith e.floats true (e.constValue consts) e.qualified i c.value
    collectInterface implemented decls iota
      (if implemented then Function.update consts c.name (some value) else consts)
      (Function.update members c.name (some value))

/-- The constants of an included file's top level, of which those that do not fold are left out. -/
def processInclude : List ConstDecl → (String → Option ConstVal) → String → Option ConstVal
  | [], symbols => symbols
  | c :: decls, symbols =>
    match foldWith e.floats false (fun _ => none) e.qualified 0 c.value with
    | .ok v => processInclude decls (Function.update symbols c.name (some v))
    | .error _ => processInclude decls symbols

/-- The constants of an interface block of an included file; one that does not fold is opaque. -/
def extractModuleMembers : List ConstDecl → IotaCounter → (String → Option ConstVal) →
    (String → Option (Option ConstVal)) → String → Option (Option ConstVal)
  | [], _, _, members => members
  | c :: decls, iota, prior, members =>
    let (i, iota) := iota.next c.span
    match foldWith e.floats false prior e.qualified i c.value with
    | .ok v =>
      extractModuleMembers decls iota (Function.update prior c.name (some v))
        (Function.update members c.name (some (some v)))
    | .error _ => extractModuleMembers decls iota prior (Function.update members c.name (some none))

end Surroundings

inductive Place where
  | fileTop
  | includedTop
  | fileInterface (implemented : Bool)
  | includedInterface

/-- The value a use of a constant sees; there is none where the use is an error. -/
def valueAt (e : Surroundings) (decls : List ConstDecl) (name : String) : Place → Option ConstVal
  | .fileTop => (e.collectConsts decls {} (fun _ => none) name).bind (·.toOption)
  | .includedTop => e.processInclude decls (fun _ => none) name
  | .fileInterface implemented =>
    (e.collectInterface implemented decls {} (fun _ => none) (fun _ => none) name).bind (·.toOption)
  | .includedInterface =>
    (e.extractModuleMembers decls {} (fun _ => none) (fun _ => none) name).join

/-! ### What a constant depends on -/

/-- The names in a constant expression, `iota` among them. -/
def names : Expr → List String
  | .ident name => [name]
  | .unary _ inner | .cast _ inner | .len inner => names inner
  | .binary lhs _ rhs => names lhs ++ names rhs
  | _ => []

/-- What a place asks of the constants declared there. At the top level of an included file, only
the first name of a declaration may depend on `iota`. In an interface block of the compiled file
that it does not implement, no constant may depend on an earlier one of a name that is also known
from elsewhere. -/
def Place.Takes (e : Surroundings) (decls : List ConstDecl) : Place → Prop
  | .includedTop => decls.IsChain fun c d => c.span = d.span → "iota" ∉ names d.value
  | .fileInterface false => decls.Pairwise fun c d => c.name ∈ names d.value → e.outer c.name = none
  | _ => True

/-- What a fold that ends well rests on: its names, and `iota` where it is mentioned. -/
theorem foldWith_mono {f : Floats} {lens lens' : Bool} {consts consts' : String → Option ConstVal}
    {qualified : String → String → Option ConstVal} {i i' : Big} {e : Expr} {v : ConstVal}
    (h : foldWith f lens consts qualified i e = .ok v) (hlens : lens = true → lens' = true)
    (hconsts : ∀ n ∈ names e, ∀ c, consts n = some c → consts' n = some c)
    (hiota : "iota" ∈ names e → i = i') : foldWith f lens' consts' qualified i' e = .ok v := by
  induction e using foldWith.induct lens consts qualified generalizing v with
  | case1 | case2 | case3 | case4 => exact h
  | case5 => rwa [foldWith, if_pos rfl, ← hiota List.mem_cons_self]
  | case6 name hname c hc =>
      simp only [foldWith, if_neg hname, hc] at h
      simp only [foldWith, if_neg hname, hconsts name List.mem_cons_self c hc]
      exact h
  | case7 name hname hc =>
      simp only [foldWith, if_neg hname, hc] at h
      cases h
  | case8 | case9 => exact h
  | case10 module member hno =>
      rw [foldWith] at h
      · cases h
      · exact hno
  | case11 op inner ih | case12 ty inner ih =>
      rw [foldWith] at h ⊢
      cases hinner : foldWith f lens consts qualified i inner with
      | error e =>
          rw [hinner] at h
          cases h
      | ok w =>
          rw [hinner] at h
          rw [ih hinner hconsts hiota]
          exact h
  | case13 lhs op rhs ihl ihr =>
      rw [foldWith] at h ⊢
      simp only [names, List.mem_append] at hconsts hiota
      cases hl : foldWith f lens consts qualified i lhs with
      | error e =>
          rw [hl] at h
          cases h
      | ok l =>
          cases hr : foldWith f lens consts qualified i rhs with
          | error e =>
              rw [hl, hr] at h
              cases h
          | ok r =>
              rw [hl, hr] at h
              rw [ihl hl (fun n hn => hconsts n (.inl hn)) (hiota ∘ .inl),
                ihr hr (fun n hn => hconsts n (.inr hn)) (hiota ∘ .inr)]
              exact h
  | case14 inner hl ih =>
      rw [foldWith, if_pos hl] at h
      rw [foldWith, if_pos (hlens hl)]
      cases hinner : foldWith f lens consts qualified i inner with
      | error e =>
          rw [hinner] at h
          cases h
      | ok w =>
          rw [hinner] at h
          rw [ih hinner hconsts hiota]
          exact h
  | case15 inner hl =>
      rw [foldWith, if_neg hl] at h
      cases h
  | case16 e h1 h2 h3 h4 h5 h6 h7 h8 h9 h10 h11 =>
      rw [foldWith] at h
      · cases h
      all_goals assumption

/-! ### The places compared with the top level of the file -/

section

variable {e : Surroundings} {decls : List ConstDecl} {name : String}

theorem collectConsts_cons (c : ConstDecl) (iota : IotaCounter)
    (consts : String → Option Folded) :
    e.collectConsts (c :: decls) iota consts =
      e.collectConsts decls (iota.next c.span).2 (Function.update consts c.name
        (some (foldWith e.floats true (e.constValue consts) e.qualified (iota.next c.span).1
          c.value))) := rfl

/-- The tables of an interface block that the file implements are those of the top level. -/
theorem collectInterface_implemented (iota : IotaCounter) (consts : String → Option Folded) :
    e.collectInterface true decls iota consts consts = e.collectConsts decls iota consts := by
  induction decls generalizing iota consts with
  | nil => rfl
  | cons c decls ih => exact ih _ _

/-- Every value one table gives, the other gives as well. -/
def Below (members : String → Option ConstVal) (consts : String → Option Folded) : Prop :=
  ∀ n v, members n = some v → consts n = some (.ok v)

namespace Below

variable {members : String → Option ConstVal} {consts : String → Option Folded}

theorem empty (consts : String → Option Folded) : Below (fun _ => none) consts :=
  fun _ _ h => by cases h

theorem constValue (h : Below members consts) {n : String} {c : ConstVal}
    (hn : members n = some c) : e.constValue consts n = some c := by
  rw [Surroundings.constValue, h n c hn]
  rfl

/-- A constant that the first table gives a value only if the second gives it that one. -/
theorem update (h : Below members consts) {value : Option ConstVal} {r : Folded}
    (hvalue : ∀ v, value = some v → r = .ok v) :
    Below (Function.update members name value) (Function.update consts name (some r)) := by
  intro n w hn
  by_cases hname : n = name
  · rw [hname, Function.update_self] at hn ⊢
    rw [hvalue w hn]
  · rw [Function.update_of_ne hname] at hn ⊢
    exact h n w hn

/-- A constant that only the second table is given. -/
theorem skip (h : Below members consts) (hnone : members name = none) (r : Folded) :
    Below members (Function.update consts name (some r)) := by
  have hsame : Function.update members name none = members := by
    rw [← hnone, Function.update_eq_self]
  rw [← hsame]
  exact h.update fun v hv => by cases hv

end Below

theorem names_of_nodup {c : ConstDecl} (hnodup : ((c :: decls).map (·.name)).Nodup) :
    (decls.map (·.name)).Nodup ∧ ∀ d ∈ decls, d.name ≠ c.name := by
  rw [List.map_cons, List.nodup_cons] at hnodup
  exact ⟨hnodup.2, fun d hd heq => hnodup.1 (heq ▸ List.mem_map_of_mem hd)⟩

/-- An included interface gives no constant another value than the top level does. -/
theorem extractModuleMembers_below {iota : IotaCounter} {prior : String → Option ConstVal}
    {members : String → Option (Option ConstVal)} {consts : String → Option Folded}
    (hnodup : (decls.map (·.name)).Nodup) (hprior : Below prior consts)
    (hmembers : Below (Option.join ∘ members) consts)
    (hnew : ∀ c ∈ decls, prior c.name = none) :
    Below (Option.join ∘ e.extractModuleMembers decls iota prior members)
      (e.collectConsts decls iota consts) := by
  induction decls generalizing iota prior members consts with
  | nil => exact hmembers
  | cons c decls ih =>
      obtain ⟨hnodup, hne⟩ := names_of_nodup hnodup
      have hhead := hnew c List.mem_cons_self
      have hnew (d : ConstDecl) (hd : d ∈ decls) := hnew d (List.mem_cons_of_mem _ hd)
      rw [Surroundings.extractModuleMembers, collectConsts_cons]
      cases hfold : foldWith e.floats false prior e.qualified (iota.next c.span).1 c.value with
      | ok v =>
          have hsame : foldWith e.floats true (e.constValue consts) e.qualified
              (iota.next c.span).1 c.value = .ok v :=
            foldWith_mono hfold (fun h => by cases h) (fun n _ w hn => hprior.constValue hn)
              fun _ => rfl
          rw [hsame]
          simp only [hfold]
          refine ih hnodup (hprior.update fun w hw => by cases hw; rfl) ?_ fun d hd => ?_
          · rw [Function.comp_update]
            exact hmembers.update fun w hw => by cases hw; rfl
          · rw [Function.update_of_ne (hne d hd), hnew d hd]
      | error err =>
          simp only [hfold]
          refine ih hnodup (hprior.skip hhead _) ?_ hnew
          rw [Function.comp_update]
          exact hmembers.update fun w hw => by cases hw

/-- The value of an entry that may be an error. -/
def valueOf (entry : Option Folded) : Option ConstVal := entry.bind (·.toOption)

theorem valueOf_some {r : Folded} {v : ConstVal} (h : valueOf (some r) = some v) : r = .ok v := by
  cases r with
  | ok w =>
      cases h
      rfl
  | error e => cases h

/-- Nor does an interface block of the file itself, unless it refers to a constant before that is
known from elsewhere too. -/
theorem collectInterface_below {iota : IotaCounter} {members consts : String → Option Folded}
    (htakes : (Place.fileInterface false).Takes e decls)
    (hmembers : Below (valueOf ∘ members) consts)
    (hknown : ∀ d ∈ decls, ∀ n ∈ names d.value, consts n ≠ none → e.outer n = none) :
    Below (valueOf ∘ e.collectInterface false decls iota (fun _ => none) members)
      (e.collectConsts decls iota consts) := by
  induction decls generalizing iota members consts with
  | nil => exact hmembers
  | cons c decls ih =>
      obtain ⟨hc, htakes⟩ := List.pairwise_cons.mp htakes
      rw [collectConsts_cons]
      refine ih htakes ?_ fun d hd n hn hconsts => ?_
      · rw [Function.comp_update]
        refine hmembers.update fun v hv => foldWith_mono (valueOf_some hv) id
          (fun n hn w hw => ?_) fun _ => rfl
        have hnone : consts n = none := Classical.byContradiction fun hne => by
          have := hknown c List.mem_cons_self n hn hne
          rw [Surroundings.constValue, this] at hw
          cases hw
        rw [Surroundings.constValue, hnone]
        exact hw
      · by_cases hname : n = c.name
        · rw [hname] at hn ⊢
          exact hc d hd hn
        · rw [Function.update_of_ne hname] at hconsts
          exact hknown d (List.mem_cons_of_mem _ hd) n hn hconsts

/-- Nor does the top level of an included file, unless a constant that is not the first of its
declaration depends on `iota`. -/
theorem processInclude_below {iota : IotaCounter} {symbols : String → Option ConstVal}
    {consts : String → Option Folded} (hnodup : (decls.map (·.name)).Nodup)
    (htakes : Place.includedTop.Takes e decls) (hsymbols : Below symbols consts)
    (hnew : ∀ c ∈ decls, symbols c.name = none)
    (hhead : ∀ c ∈ decls.head?, iota.group = some c.span → "iota" ∉ names c.value) :
    Below (e.processInclude decls symbols) (e.collectConsts decls iota consts) := by
  induction decls generalizing iota symbols consts with
  | nil => exact hsymbols
  | cons c decls ih =>
      obtain ⟨hnodup, hne⟩ := names_of_nodup hnodup
      have hfirst := hhead c rfl
      have hnewHead := hnew c List.mem_cons_self
      have hnew (d : ConstDecl) (hd : d ∈ decls) := hnew d (List.mem_cons_of_mem _ hd)
      have hnext : ∀ d ∈ decls.head?, (iota.next c.span).2.group = some d.span →
          "iota" ∉ names d.value := fun d hd hspan =>
        (List.isChain_cons.mp htakes).1 d hd (Option.some.inj hspan)
      have htakes := (List.isChain_cons.mp htakes).2
      rw [Surroundings.processInclude, collectConsts_cons]
      cases hfold : foldWith e.floats false (fun _ => none) e.qualified 0 c.value with
      | ok v =>
          have hsame : foldWith e.floats true (e.constValue consts) e.qualified
              (iota.next c.span).1 c.value = .ok v :=
            foldWith_mono hfold (fun h => by cases h) (fun n _ w hn => by cases hn) fun hiota => by
              rw [IotaCounter.next]
              exact (if_neg fun hgroup => hfirst hgroup hiota).symm
          rw [hsame]
          refine ih hnodup htakes (hsymbols.update fun w hw => by cases hw; rfl) (fun d hd => ?_)
            hnext
          rw [Function.update_of_ne (hne d hd), hnew d hd]
      | error err => exact ih hnodup htakes (hsymbols.skip hnewHead _) hnew hnext

/-- What a place says of a constant is what the top level of the file says. -/
theorem valueAt_fileTop {p : Place} {v : ConstVal} (hnodup : (decls.map (·.name)).Nodup)
    (htakes : p.Takes e decls) (hv : valueAt e decls name p = some v) :
    valueAt e decls name .fileTop = some v := by
  have hbelow : ∀ members : String → Option ConstVal,
      Below members (e.collectConsts decls {} fun _ => none) → members name = some v →
      valueAt e decls name .fileTop = some v := fun members hmembers hname => by
    rw [valueAt, hmembers name v hname]
    rfl
  match p with
  | .fileTop => exact hv
  | .includedTop =>
      exact hbelow _ (processInclude_below hnodup htakes (.empty _) (fun _ _ => rfl)
        fun _ _ h => by cases h) hv
  | .fileInterface true =>
      rwa [valueAt, collectInterface_implemented] at hv
  | .fileInterface false =>
      exact hbelow _ (collectInterface_below htakes (fun _ _ h => by cases h) fun _ _ _ _ h => absurd rfl h) hv
  | .includedInterface =>
      exact hbelow _ (extractModuleMembers_below hnodup (.empty _) (fun _ _ h => by cases h) fun _ _ => rfl) hv

end

/-- Constants of different names mean the same at any two places that take them, unless a use of
one is an error. -/
theorem valueAt_agree {e : Surroundings} {decls : List ConstDecl} {p q : Place}
    (hnodup : (decls.map (·.name)).Nodup) (hp : p.Takes e decls) (hq : q.Takes e decls)
    {name : String} {v w : ConstVal} (hv : valueAt e decls name p = some v)
    (hw : valueAt e decls name q = some w) : v = w :=
  Option.some.inj ((valueAt_fileTop hnodup hp hv).symm.trans (valueAt_fileTop hnodup hq hw))

/-- A file that knows no other constants, and computes with no reals. -/
def bare : Surroundings where
  floats := ⟨fun _ _ => 0, fun _ _ => 0, fun _ _ => 0, fun _ _ => 0, fun _ => 0, fun _ => 0,
    fun _ => 0⟩
  outer := fun _ => none
  qualified := fun _ _ => none

/-- `Red: con iota; Last: con Red + 1;`, in the file and in an interface that it includes. -/
theorem valueAt_agree_last :
    ∃ v w, valueAt bare [⟨"Red", .ident "iota", 0⟩,
        ⟨"Last", .binary (.ident "Red") .add (.intLit 1), 1⟩] "Last" .fileTop = some v ∧
      valueAt bare [⟨"Red", .ident "iota", 0⟩,
        ⟨"Last", .binary (.ident "Red") .add (.intLit 1), 1⟩] "Last" .includedInterface = some w ∧
      v = w :=
  ⟨_, _, rfl, rfl,
    @valueAt_agree bare [⟨"Red", .ident "iota", 0⟩,
      ⟨"Last", .binary (.ident "Red") .add (.intLit 1), 1⟩] .fileTop .includedInterface
      (by decide) trivial trivial "Last" _ _ rfl rfl⟩

/-- `Red, Green: con iota;` numbers its names in the file, but not at the top level of a file that
it includes. -/
theorem included_iota_restarts :
    valueAt bare [⟨"Red", .ident "iota", 0⟩, ⟨"Green", .ident "iota", 0⟩] "Green" .fileTop =
        some (.int 1) ∧
      valueAt bare [⟨"Red", .ident "iota", 0⟩, ⟨"Green", .ident "iota", 0⟩] "Green" .includedTop =
        some (.int 0) :=
  ⟨rfl, rfl⟩

end RiceVM.Limbo
