import RiceVM.Programs
import Mathlib.Data.List.DropRight

/-!
The host paths a guest's request reaches. The descriptor table normalises a guest path and
puts the root before it; the module loader has a list of candidates of its own.
-/
namespace RiceVM
open Memory

/-- A path or a part of one, by its characters. -/
abbrev Text := List Char

def dotDot : Text := ['.', '.']

def isAbsolute (path : Text) : Bool := path.head? = some '/'

namespace Filetab

/-- One component of a guest path, after those before it. -/
def pushPart (parts : List Text) (part : Text) : List Text :=
  if part = [] ∨ part = ['.'] then parts
  else if part = dotDot then parts.dropLast
  else parts ++ [part]

def resolvePath (root path : Text) : Text :=
  if root = [] then path
  else
    let parts := (path.splitOn '/').foldl pushPart []
    let root := root.rdropWhile (· == '/')
    if parts = [] then root else root ++ '/' :: ['/'].intercalate parts

/-- The devices `open` answers without the host's file system. -/
def devices : List String :=
  ["/dev/audio", "/dev/audioctl", "/dev/sysctl", "/dev/sysname", "/dev/user", "/dev/time",
    "/dev/cons", "/dev/null", "/dev/random", "/dev/urandom", "/dev/drivers"]

def isVirtual (path : Text) : Bool :=
  (devices.any fun d => path = d.toList) ||
    ("/prog/".toList.isPrefixOf path &&
      ["/status", "/wait", "/ns", "/ctl"].any fun s => s.toList.isSuffixOf path) ||
    "/env/".toList.isPrefixOf path

structure OpenOptions where
  read : Bool
  write : Bool
  truncate : Bool
  create : Bool
  permissions : Option Word
  deriving DecidableEq, Repr

def openMode (mode : Word) : OpenOptions :=
  let truncate := mode &&& 0x10#32 ≠ 0#32
  { read := mode &&& 3#32 ≠ 1#32
    write := mode &&& 3#32 ≠ 0#32 || truncate
    truncate := truncate
    create := false
    permissions := none }

/-- The host file an `open` opens, or nothing for a virtual one. -/
def openPath (root path : Text) (mode : Word) : Option (Text × OpenOptions) :=
  if isVirtual path then none else some (resolvePath root path, openMode mode)

/-- The file a `create` opens. Without permission bits it is readable and writable by all. -/
def createPath (root path : Text) (mode perm : Word) : Text × OpenOptions :=
  let bits := perm &&& 0o7777#32
  (resolvePath root path,
    { read := mode &&& 3#32 ≠ 1#32
      write := true
      truncate := true
      create := true
      permissions := some (if bits = 0#32 then 0o666#32 else bits) })

end Filetab

namespace Ops

def dis : Text := ".dis".toList

/-- The path with a leading `/`, `/dis/` or `/dis/lib/` removed, shortest prefix first. -/
def strippedPaths (path : Text) : List Text :=
  ["/", "/dis/", "/dis/lib/"].filterMap fun p => path.dropPrefix? p.toList

/-- The candidates in the directories `RICEVM_PROBE` names. -/
def probeCandidates (path : Text) (probe : Option Text) : List Text :=
  (((probe.map (·.splitOn ':')).getD []).filter (· ≠ [])).flatMap fun dir =>
    [dir ++ '/' :: path, dir ++ '/' :: path ++ dis] ++
      (strippedPaths path).flatMap fun sp => [dir ++ '/' :: sp, dir ++ '/' :: sp ++ dis]

def moduleCandidates (path root : Text) (probe : Option Text) : List Text :=
  (if root ≠ [] ∧ isAbsolute path then [root ++ path, root ++ path ++ dis] else []) ++
    [path, path ++ dis] ++
    probeCandidates path probe ++
    (if root ≠ [] then
      (strippedPaths path).flatMap fun sp =>
        [root ++ "/dis/".toList ++ sp, root ++ "/dis/".toList ++ sp ++ dis,
          root ++ "/dis/lib/".toList ++ sp, root ++ "/dis/lib/".toList ++ sp ++ dis]
    else []) ++
    ["./".toList ++ path ++ dis] ++
    (strippedPaths path).flatMap fun sp => [sp, sp ++ dis]

end Ops

open Filetab Ops

/-- The host as a load sees it: the module each of its files holds, and `RICEVM_PROBE`. -/
structure Host where
  decode : Text → Option Module
  probe : Option Text

/-- The candidates a load reads: those up to the first that holds a module. -/
def readsOf (decode : Text → Option Module) : List Text → List Text
  | [] => []
  | c :: cs =>
    match decode c with
    | some _ => [c]
    | none => c :: readsOf decode cs

/-- What `op_load` finds in the host's files. -/
def Host.loadFile (host : Host) (root : Text) (path : String) : Option Module :=
  (moduleCandidates path.toList root host.probe).findSome? host.decode

/-- A guest's request that may reach a file of the host. -/
inductive Request where
  | open (path : Text) (mode : Word)
  | create (path : Text) (mode perm : Word)
  | load (path : String)

namespace Request

/-- The host paths a request opens, creates or reads. -/
def hostPaths (modules : ModuleRegistry) (host : Host) (root : Text) : Request → List Text
  | .open path mode => ((openPath root path mode).map (·.1)).toList
  | .create path mode perm => [(createPath root path mode perm).1]
  | .load path =>
    if path = "$self" ∨ (modules.findBuiltin path).isSome then []
    else readsOf host.decode (moduleCandidates path.toList root host.probe)

/-- The host paths in directories that the host itself named. -/
def probePaths (host : Host) : Request → List Text
  | .load path => probeCandidates path.toList host.probe
  | _ => []

end Request

/-- The components of a path, less those that name the directory they stand in. -/
def components (path : Text) : List Text :=
  (path.splitOn '/').filter fun c => c ≠ [] ∧ c ≠ ['.']

/-- The path is the root, or the root followed by components none of which climbs. -/
def Inside (root path : Text) : Prop :=
  isAbsolute path = isAbsolute root ∧ components root <+: components path ∧
    dotDot ∉ (components path).drop (components root).length

instance (root path : Text) : Decidable (Inside root path) := by
  unfold Inside; infer_instance

/-- The empty host path names no file, so nothing is opened through it. -/
def Confined (root path : Text) : Prop := path = [] ∨ Inside root path

instance (root path : Text) : Decidable (Confined root path) := by
  unfold Confined; infer_instance

theorem components_append_slash (xs ys : Text) :
    components (xs ++ '/' :: ys) = components xs ++ components ys := by
  simp only [components, List.splitOn_append_cons_self, List.filter_append]

theorem components_trimEnd (root : Text) :
    components (root.rdropWhile (· == '/')) = components root := by
  induction root using List.reverseRecOn with
  | nil => rfl
  | append_singleton root c ih =>
      rw [List.rdropWhile_concat]
      by_cases hc : c = '/'
      · subst hc
        simp only [beq_self_eq_true, if_true, ih, components_append_slash]
        exact (List.append_nil _).symm
      · simp [hc]

theorem slash_notMem_of_mem_splitOn {path part : Text} (h : part ∈ path.splitOn '/') :
    '/' ∉ part := by
  induction path generalizing part with
  | nil =>
      rw [List.splitOn_nil, List.mem_singleton] at h
      simp [h]
  | cons c path ih =>
      rw [List.splitOn_cons_eq_if_modifyHead] at h
      split at h
      · rcases List.mem_cons.mp h with rfl | h
        · simp
        · exact ih h
      · next hc =>
        cases hs : path.splitOn '/' with
        | nil => exact absurd hs (List.splitOn_ne_nil _ _)
        | cons head tail =>
            simp only [hs, List.modifyHead_cons, List.mem_cons] at h
            have hhead := ih (hs ▸ List.mem_cons_self)
            rcases h with rfl | h
            · have hne : '/' ≠ c := fun h => hc (beq_iff_eq.mpr h.symm)
              exact fun hmem => (List.mem_cons.mp hmem).elim hne hhead
            · exact ih (hs ▸ List.mem_cons_of_mem _ h)

/-- A part that `resolve_path` keeps. -/
def PlainPart (part : Text) : Prop :=
  '/' ∉ part ∧ part ≠ [] ∧ part ≠ ['.'] ∧ part ≠ dotDot

theorem pushPart_plain {parts : List Text} {part : Text} (hslash : '/' ∉ part)
    (h : ∀ p ∈ parts, PlainPart p) : ∀ p ∈ pushPart parts part, PlainPart p := by
  unfold pushPart
  split
  · exact h
  · split
    · exact fun p hp => h p (List.dropLast_subset _ hp)
    · next hdot hclimb =>
      intro p hp
      rcases List.mem_append.mp hp with hp | hp
      · exact h p hp
      · rw [List.mem_singleton.mp hp]
        exact ⟨hslash, fun h => hdot (.inl h), fun h => hdot (.inr h), hclimb⟩

theorem foldl_pushPart_plain (split parts : List Text) (hsplit : ∀ p ∈ split, '/' ∉ p)
    (h : ∀ p ∈ parts, PlainPart p) : ∀ p ∈ split.foldl pushPart parts, PlainPart p := by
  induction split generalizing parts with
  | nil => exact h
  | cons part split ih =>
      exact ih _ (fun p hp => hsplit p (List.mem_cons_of_mem _ hp))
        (pushPart_plain (hsplit part List.mem_cons_self) h)

theorem components_intercalate {parts : List Text} (h : ∀ p ∈ parts, PlainPart p)
    (hne : parts ≠ []) : components (['/'].intercalate parts) = parts := by
  rw [components, List.splitOn_intercalate _ (fun p hp => (h p hp).1) hne]
  exact List.filter_eq_self.mpr fun p hp => by simp [(h p hp).2.1, (h p hp).2.2.1]

theorem isAbsolute_trimEnd {root : Text} (h : root.rdropWhile (· == '/') ≠ []) :
    isAbsolute (root.rdropWhile (· == '/')) = isAbsolute root := by
  obtain ⟨rest, hroot⟩ := List.rdropWhile_prefix (p := (· == '/')) (l := root)
  cases hr : root.rdropWhile (· == '/') with
  | nil => exact absurd hr h
  | cons c cs =>
      rw [hr] at hroot
      simp [isAbsolute, ← hroot]

theorem isAbsolute_of_trimEnd_nil {root : Text} (hroot : root ≠ [])
    (h : root.rdropWhile (· == '/') = []) : isAbsolute root := by
  cases root with
  | nil => exact absurd rfl hroot
  | cons c cs =>
      have hc := List.rdropWhile_eq_nil_iff.mp h c List.mem_cons_self
      simpa [isAbsolute] using hc

/-- Whatever the guest's path, the path `resolve_path` makes of it stays inside the root. -/
theorem resolvePath_confined {root : Text} (hroot : root ≠ []) (path : Text) :
    Confined root (resolvePath root path) := by
  have hplain := foldl_pushPart_plain (path.splitOn '/') []
    (fun p => slash_notMem_of_mem_splitOn) (by simp)
  simp only [resolvePath, if_neg hroot]
  split
  · by_cases htrim : root.rdropWhile (· == '/') = []
    · exact .inl htrim
    · refine .inr ⟨isAbsolute_trimEnd htrim, ?_, ?_⟩ <;> simp [components_trimEnd]
  · next hne =>
    refine .inr ⟨?_, ?_, ?_⟩
    · by_cases htrim : root.rdropWhile (· == '/') = []
      · rw [htrim, isAbsolute_of_trimEnd_nil hroot htrim]
        rfl
      · rw [← isAbsolute_trimEnd htrim]
        cases hr : root.rdropWhile (· == '/') with
        | nil => exact absurd hr htrim
        | cons c cs => rfl
    · rw [components_append_slash, components_trimEnd]
      exact List.prefix_append _ _
    · rw [components_append_slash, components_trimEnd, List.drop_left,
        components_intercalate hplain hne]
      exact fun h => (hplain _ h).2.2.2 rfl

theorem mem_of_mem_readsOf {decode : Text → Option Module} {cs : List Text} {c : Text}
    (h : c ∈ readsOf decode cs) : c ∈ cs := by
  induction cs with
  | nil => exact h
  | cons d cs ih =>
      simp only [readsOf] at h
      split at h
      · exact List.mem_cons.mpr (.inl (List.mem_singleton.mp h))
      · rcases List.mem_cons.mp h with rfl | h
        · exact List.mem_cons_self
        · exact List.mem_cons_of_mem _ (ih h)

theorem readsOf_of_none (cs : List Text) : readsOf (fun _ => none) cs = cs := by
  induction cs with
  | nil => rfl
  | cons c cs ih => simp only [readsOf, ih]

theorem strippedPaths_of_relative {path : Text} (h : isAbsolute path = false) :
    strippedPaths path = [] := by
  cases path with
  | nil => rfl
  | cons c cs =>
      have hc : c ≠ '/' := by simpa [isAbsolute] using h
      simp [strippedPaths, List.dropPrefix?, hc]

theorem moduleCandidates_of_relative {path : Text} (h : isAbsolute path = false) (root : Text)
    (probe : Option Text) :
    moduleCandidates path root probe =
      [path, path ++ dis] ++ probeCandidates path probe ++ ["./".toList ++ path ++ dis] := by
  simp [moduleCandidates, strippedPaths_of_relative h, h]

theorem confined_dotSlash {root path : Text} (habs : isAbsolute path = false) :
    Confined root ("./".toList ++ path ++ dis) ↔ Confined root (path ++ dis) := by
  have hcomponents : components ("./".toList ++ path ++ dis) = components (path ++ dis) := by
    rw [show "./".toList ++ path ++ dis = ['.'] ++ '/' :: (path ++ dis) by simp,
      components_append_slash]
    rfl
  have habsolute : isAbsolute ("./".toList ++ path ++ dis) = isAbsolute (path ++ dis) := by
    cases path with
    | nil => rfl
    | cons c cs => simpa [isAbsolute] using habs
  have hne : path ++ dis ≠ [] := by simp [dis]
  have hne' : "./".toList ++ path ++ dis ≠ [] := by simp
  simp only [Confined, Inside, hcomponents, habsolute, hne, hne', false_or]

/-- A relative path that already lies in the root, with and without `.dis`. -/
def AlreadyInside (root path : Text) : Prop :=
  isAbsolute path = false ∧ Confined root path ∧ Confined root (path ++ dis)

instance (root path : Text) : Decidable (AlreadyInside root path) := by
  unfold AlreadyInside; infer_instance

theorem relative_of_candidates {root path : Text} (hpath : Confined root path)
    (hdot : Confined root ("./".toList ++ path ++ dis)) : isAbsolute path = false := by
  have hroot : isAbsolute root = false := by
    rcases hdot with h | ⟨habs, -⟩
    · simp at h
    · rw [← habs]; simp [isAbsolute]
  rcases hpath with rfl | ⟨habs, -⟩
  · rfl
  · rw [habs, hroot]

/-- The loader's candidates stay inside the root exactly for paths that lie there as they
are, before the root is put in front of them. -/
theorem candidates_confined_iff (root path : Text) :
    (∀ probe, ∀ c ∈ moduleCandidates path root probe,
      Confined root c ∨ c ∈ probeCandidates path probe) ↔ AlreadyInside root path := by
  constructor
  · intro h
    have hall : ∀ c ∈ moduleCandidates path root none, Confined root c := fun c hc => by
      simpa [probeCandidates] using h none c hc
    have hpath := hall path (by simp [moduleCandidates])
    have hdis := hall (path ++ dis) (by simp [moduleCandidates])
    have hdot := hall ("./".toList ++ path ++ dis) (by simp [moduleCandidates])
    exact ⟨relative_of_candidates hpath hdot, hpath, hdis⟩
  · rintro ⟨habs, hpath, hdis⟩ probe c hc
    simp only [moduleCandidates_of_relative habs, List.mem_append, List.mem_cons,
      List.not_mem_nil, or_false] at hc
    rcases hc with ((rfl | rfl) | hc) | rfl
    · exact .inl hpath
    · exact .inl hdis
    · exact .inr hc
    · exact .inl ((confined_dotSlash habs).mpr hdis)

/-- When a request reaches no file outside the root. Only a load can: a path that names no
built-in module must already lie inside the root as the guest wrote it. -/
def Request.StaysInside (modules : ModuleRegistry) (root : Text) : Request → Prop
  | .load path =>
    path = "$self" ∨ (modules.findBuiltin path).isSome ∨ AlreadyInside root path.toList
  | _ => True

theorem request_confined_iff (modules : ModuleRegistry) {root : Text} (hroot : root ≠ [])
    (request : Request) :
    (∀ host : Host, ∀ c ∈ request.hostPaths modules host root,
      Confined root c ∨ c ∈ request.probePaths host) ↔ request.StaysInside modules root := by
  cases request with
  | «open» path mode =>
      refine iff_of_true (fun host c hc => .inl ?_) trivial
      simp only [Request.hostPaths, openPath] at hc
      split at hc
      · simp at hc
      · simp only [Option.map_some, Option.toList_some, List.mem_singleton] at hc
        exact hc ▸ resolvePath_confined hroot path
  | create path mode perm =>
      refine iff_of_true (fun host c hc => .inl ?_) trivial
      simp only [Request.hostPaths, createPath, List.mem_singleton] at hc
      exact hc ▸ resolvePath_confined hroot path
  | load path =>
      simp only [Request.hostPaths, Request.probePaths, Request.StaysInside]
      by_cases hself : path = "$self" ∨ (modules.findBuiltin path).isSome
      · simp only [if_pos hself, List.not_mem_nil, false_implies, implies_true, true_iff]
        exact hself.imp_right .inl
      · simp only [if_neg hself, ← or_assoc, or_iff_right hself, ← candidates_confined_iff]
        constructor
        · intro h probe c hc
          exact h ⟨fun _ => none, probe⟩ c (by rwa [readsOf_of_none])
        · exact fun h host c hc => h host.probe c (mem_of_mem_readsOf hc)

/-- Under the root `data`, a load of `data/m` stays inside. -/
theorem request_confined_iff_data :
    Confined "data".toList "data/m".toList ∨
      "data/m".toList ∈ (Request.load "data/m").probePaths ⟨fun _ => none, none⟩ :=
  (request_confined_iff [] (by decide) (.load "data/m")).mpr (.inr (.inr (by decide)))
    ⟨fun _ => none, none⟩ "data/m".toList (by decide)

/-- A host with one module, outside the root `/host/inferno`. -/
def outsideHost : Host where
  decode path :=
    if path = "/host/inferno/../../etc/m".toList then some (.ofCode "m" [] 0) else none
  probe := none

/-- The loader puts the root before the path as it is, so `..` leaves it again. -/
theorem load_leaves_root :
    outsideHost.loadFile "/host/inferno".toList "/../../etc/m" = some (.ofCode "m" [] 0) ∧
      ∃ c ∈ (Request.load "/../../etc/m").hostPaths [] outsideHost "/host/inferno".toList,
        ¬ (Confined "/host/inferno".toList c ∨
          c ∈ (Request.load "/../../etc/m").probePaths outsideHost) :=
  ⟨rfl, "/host/inferno/../../etc/m".toList, by decide, by decide⟩

end RiceVM
