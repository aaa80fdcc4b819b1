import RiceVM.Limbo.Fold
import RiceVM.Lib.Wrapping

/-!
Folding a constant expression gives the value its code leaves exactly where no operator's result
leaves the width of its operands. The folder works in 64 bits whatever the types.
-/
namespace RiceVM.Limbo

variable (f : Floats) (s : Scope) (iota : Big)

/-- A closed constant expression: literals and named constants under the unary and binary
operators, the casts and `len`, none of it real. -/
inductive ConstExpr : Expr → Prop
  | intLit (v : Big) : ConstExpr (.intLit v)
  | charLit (v : Word) : ConstExpr (.charLit v)
  | stringLit (t : String) : ConstExpr (.stringLit t)
  | ident {name : String} {v : ConstVal} (hname : name ≠ "iota") (hvar : s.lookupVar name = none)
      (hconst : s.consts name = some v) (hreal : ∀ bits, v ≠ .real bits) :
      ConstExpr (.ident name)
  | modQual {module member : String} {v : ConstVal} (hvar : s.moduleHandleType module = none)
      (hconst : s.qualifiedConsts module member = some v) (hreal : ∀ bits, v ≠ .real bits) :
      ConstExpr (.modQual (.ident module) member)
  | unary {op : UnaryOp} {e : Expr} (he : ConstExpr e) : ConstExpr (.unary op e)
  | binary {l r : Expr} {op : BinOp} (hl : ConstExpr l) (hr : ConstExpr r) :
      ConstExpr (.binary l op r)
  | cast {ty : BasicType} {e : Expr} (hty : ty ≠ .real) (he : ConstExpr e) :
      ConstExpr (.cast (.basic ty) e)
  | len {e : Expr} (he : ConstExpr e) : ConstExpr (.len e)

/-- A folded value is what the expression means, and what its code leaves. -/
def Agree (folded : Folded) (denoted left : Option Val) : Prop :=
  folded ≠ .error .panic ∧
    ∀ v, folded = .ok v → ∃ w, denoted = some w ∧ left = some w ∧ w.const = v

/-- The names that an interface has declared are constants of the module that includes it. -/
def Prior (prior : String → Option ConstVal) : Prop :=
  ∀ name v, prior name = some v → s.consts name = some v

/-- A variable of the expression's kind holds what the expression means, and what its code
leaves. -/
def AgreeGlobal (kind : NumKind) (folded : Folded) (denoted left : Option Val) : Prop :=
  folded ≠ .error .panic ∧
    ∀ v, folded = .ok v → ∃ w, denoted = some w ∧ left = some w ∧ declareGlobal kind v = some w

/-- The expression is folded to what it means wherever it stands: in a `con` declaration, after any
declarations of an interface, as the initialiser of a variable. -/
structure Agrees (e : Expr) : Prop where
  con : Agree (foldConst f s iota e) (denote s e) (leaves s e)
  interface : ∀ prior, Prior s prior →
    Agree (foldInterface f s prior iota e) (denote s e) (leaves s e)
  initialiser : AgreeGlobal (inferNumKind s e) (foldConst f s iota e) (denote s e) (leaves s e)

/-! ### The operands that are safe -/

/-- Two words under an operator: the result as an integer fits a word; a shift by more than a
word's width does the same in either width. -/
def SafeWords (op : BinOp) (a b : Word) : Prop :=
  match op with
  | .add => Fits 32 (a.toInt + b.toInt)
  | .sub => Fits 32 (a.toInt - b.toInt)
  | .mul => Fits 32 (a.toInt * b.toInt)
  | .div => Fits 32 (a.toInt.tdiv b.toInt)
  | .lshift =>
    if b.toNat % 64 < 32 then Fits 32 (a.toInt * 2 ^ (b.toNat % 64))
    else a <<< (b.toNat % 32) = 0
  | .rshift => b.toNat % 64 < 32 ∨ a.sshiftRight (b.toNat % 32) = a.sshiftRight 31
  | _ => True

def SafeBinary (lhs : Expr) (op : BinOp) (x y : Val) : Prop :=
  match x, y with
  | .word a, .word b => SafeWords op a b
  -- The slot of a shift has the width of the wider operand.
  | .word _, .big _ => op ≠ .lshift ∧ op ≠ .rshift
  | .str _, .str _ => op = .add → inferExprType s lhs = .ptr
  | _, _ => True

def SafeUnary (op : UnaryOp) (x : Val) : Prop :=
  match op, x with
  | .neg, .word v => Fits 32 (-v.toInt)
  | .neg, .big v => v ≠ BitVec.intMin 64
  | .not, .big v => v.toNat < 2 ^ 32
  | _, _ => True

def SafeCast (ty : BasicType) (x : Val) : Prop :=
  match ty, x with
  | _, .str _ => False
  | .int, .big v => Fits 32 v.toInt
  | .byte, .word v => 0 ≤ v.toInt ∧ v.toInt < 256
  | .byte, .big v => 0 ≤ v.toInt ∧ v.toInt < 256
  | _, _ => True

/-- No operator of a node overflows what its operands' width holds. -/
def SafeNode : Expr → Prop
  | .unary op e => ∀ x, denote s e = some x → SafeUnary op x
  | .binary l op r => ∀ x y, denote s l = some x → denote s r = some y → SafeBinary s l op x y
  | .cast (.basic ty) e => ∀ x, denote s e = some x → SafeCast ty x
  | .len e => ∀ t, denote s e = some (.str t) → Fits 32 (charCount t : Big).toInt
  | .modQual (.ident module) member =>
    ∀ v, s.qualifiedConsts module member = some (.int v) → isWide v = false
  | _ => True

/-- `P` holds of an expression and of every expression it is built from. -/
def Throughout (P : Expr → Prop) : Expr → Prop
  | .unary op e => P (.unary op e) ∧ Throughout P e
  | .binary l op r => P (.binary l op r) ∧ Throughout P l ∧ Throughout P r
  | .cast ty e => P (.cast ty e) ∧ Throughout P e
  | .len e => P (.len e) ∧ Throughout P e
  | e => P e

/-! ### Outcomes of one node -/

/-- The folder, the meaning and the code come to one value, or the folder refuses an expression
that has no meaning. -/
def Sound (folded : Folded) (denoted left : Option Val) : Prop :=
  (∃ w, folded = .ok w.const ∧ denoted = some w ∧ left = some w) ∨
    (∃ text, folded = .error (.error text)) ∧ denoted = none

/-- The folder panics, or comes to a value that the expression does not mean or its code does not
leave. -/
def Unsound (folded : Folded) (denoted left : Option Val) : Prop :=
  folded = .error .panic ∨
    ∃ v, folded = .ok v ∧ ∀ w, denoted = some w → left = some w → w.const ≠ v

variable {folded : Folded} {denoted left : Option Val}

theorem Sound.agree (h : Sound folded denoted left) : Agree folded denoted left := by
  rcases h with ⟨w, rfl, hd, hl⟩ | ⟨⟨text, rfl⟩, -⟩
  · exact ⟨by simp, fun v hv => ⟨w, hd, hl, by simpa using hv⟩⟩
  · exact ⟨by simp, fun v hv => by cases hv⟩

theorem Unsound.not_agree (h : Unsound folded denoted left) : ¬ Agree folded denoted left := by
  rintro ⟨hpanic, hok⟩
  rcases h with hp | ⟨v, hv, hne⟩
  · exact hpanic hp
  · obtain ⟨w, hd, hl, hw⟩ := hok v hv
    exact hne w hd hl hw

/-- A node whose operands are sound is sound itself exactly when it is safe. -/
def Decided (safe : Prop) (folded : Folded) (denoted left : Option Val) : Prop :=
  (safe ∧ Sound folded denoted left) ∨ (¬ safe ∧ Unsound folded denoted left)

theorem Decided.agree_iff {safe : Prop} (h : Decided safe folded denoted left) :
    Agree folded denoted left ↔ safe := by
  rcases h with ⟨hs, h⟩ | ⟨hs, h⟩
  · exact ⟨fun _ => hs, fun _ => h.agree⟩
  · exact ⟨fun ha => absurd ha h.not_agree, fun hs' => absurd hs' hs⟩

theorem Decided.sound {safe : Prop} (h : Decided safe folded denoted left) (hs : safe) :
    Sound folded denoted left := by
  rcases h with ⟨-, h⟩ | ⟨hn, -⟩
  · exact h
  · exact absurd hs hn

/-- A node whose results are known, in 64 bits and in 32. -/
theorem decided_word {safe : Prop} {u : Big} {v : Word} (h : u = v.signExtend 64 ↔ safe)
    (hf : folded = .ok (.int u)) (hd : denoted = some (.word v)) (hl : left = some (.word v)) :
    Decided safe folded denoted left := by
  subst hf hd hl
  by_cases hs : safe
  · exact .inl ⟨hs, .inl ⟨.word v, by rw [h.mpr hs]; rfl, rfl, rfl⟩⟩
  · refine .inr ⟨hs, .inr ⟨_, rfl, fun w hw _ heq => hs (h.mp ?_)⟩⟩
    cases hw
    exact (ConstVal.int.inj heq).symm

theorem decided_of_sound {safe : Prop} (hs : safe) (h : Sound folded denoted left) :
    Decided safe folded denoted left := .inl ⟨hs, h⟩

theorem decided_lost {safe : Prop} {v : ConstVal} (hs : ¬ safe) (hf : folded = .ok v)
    (hl : left = none) : Decided safe folded denoted left := by
  refine .inr ⟨hs, .inr ⟨v, hf, fun w _ hw => ?_⟩⟩
  rw [hl] at hw
  cases hw

theorem sound_some {w : Val} (hf : folded = .ok w.const) (hd : denoted = some w)
    (hl : left = some w) : Sound folded denoted left := .inl ⟨w, hf, hd, hl⟩

theorem sound_none {t : String} (hf : folded = .error (.error t)) (hd : denoted = none) :
    Sound folded denoted left := .inr ⟨⟨t, hf⟩, hd⟩

/-! ### Reading an operand -/

section Operands

variable {s : Scope} {e : Expr} {k : NumKind} {x : Val}

theorem leaves_eq_some {w : Val} (h : leaves s e = some w) :
    ∃ c x, genCode s e = some c ∧ c.eval = some x ∧ x.readAt (inferNumKind s e) = some w := by
  simp only [leaves, Option.bind_eq_bind, Option.bind_eq_some_iff] at h
  obtain ⟨c, hc, x, hx, hw⟩ := h
  exact ⟨c, x, hc, hx, hw⟩

theorem readAt_word {v : Word} (h : x.readAt k = some (.word v)) :
    k = .word ∧ x.word? = some v := by
  cases k <;> cases x <;> simp_all

theorem readAt_big {v : Big} (h : x.readAt k = some (.big v)) : k = .big ∧ x = .big v := by
  cases k <;> cases x <;> simp_all

theorem readAt_str {t : String} (h : x.readAt k = some (.str t)) : k = .word ∧ x = .str t := by
  cases k <;> cases x <;> simp_all

theorem leaves_word {v : Word} (h : leaves s e = some (.word v)) :
    inferNumKind s e = .word ∧ ∃ c x, genCode s e = some c ∧ c.eval = some x ∧
      x.word? = some v := by
  obtain ⟨c, x, hc, hx, hw⟩ := leaves_eq_some h
  obtain ⟨hk, hv⟩ := readAt_word hw
  exact ⟨hk, c, x, hc, hx, hv⟩

theorem leaves_big {v : Big} (h : leaves s e = some (.big v)) :
    inferNumKind s e = .big ∧ ∃ c, genCode s e = some c ∧ c.eval = some (.big v) := by
  obtain ⟨c, x, hc, hx, hw⟩ := leaves_eq_some h
  obtain ⟨hk, rfl⟩ := readAt_big hw
  exact ⟨hk, c, hc, hx⟩

theorem leaves_str {t : String} (h : leaves s e = some (.str t)) :
    inferNumKind s e = .word ∧ ∃ c, genCode s e = some c ∧ c.eval = some (.str t) := by
  obtain ⟨c, x, hc, hx, hw⟩ := leaves_eq_some h
  obtain ⟨hk, rfl⟩ := readAt_str hw
  exact ⟨hk, c, hc, hx⟩

theorem inferNumKind_of_leaves (h : leaves s e = some x) : inferNumKind s e = x.kind := by
  cases x with
  | word v => exact (leaves_word h).1
  | big v => exact (leaves_big h).1
  | str t => exact (leaves_str h).1

/-- A numeric operand, converted to a word. -/
theorem operand_word {v : Word} (h : leaves s e = some x) (hx : x.word? = some v) :
    ∃ c c' y, genCode s e = some c ∧ genToKind (inferNumKind s e) .word c = some c' ∧
      c'.eval = some y ∧ y.word? = some v := by
  cases x with
  | word w =>
      obtain ⟨hk, c, y, hc, hy, hw⟩ := leaves_word h
      cases hx
      exact ⟨c, c, y, hc, by rw [hk]; rfl, hy, hw⟩
  | big b =>
      obtain ⟨hk, c, hc, hy⟩ := leaves_big h
      cases hx
      exact ⟨c, .cvtlw c, .word (b.setWidth 32), hc, by rw [hk]; rfl,
        by simp [Code.eval, hy], rfl⟩
  | str t => cases hx

/-- The value of a number in 64 bits. -/
def promote : Val → Option Big
  | .word v => some (v.signExtend 64)
  | .big v => some v
  | .str _ => none

/-- A numeric operand, converted to a big. -/
theorem operand_big {v : Big} (h : leaves s e = some x) (hx : promote x = some v) :
    ∃ c c', genCode s e = some c ∧ genToKind (inferNumKind s e) .big c = some c' ∧
      c'.eval = some (.big v) := by
  cases x with
  | word w =>
      obtain ⟨hk, c, y, hc, hy, hw⟩ := leaves_word h
      cases hx
      exact ⟨c, .cvtwl c, hc, by rw [hk]; rfl, by simp [Code.eval, hy, hw]⟩
  | big b =>
      obtain ⟨hk, c, hc, hy⟩ := leaves_big h
      cases hx
      exact ⟨c, c, hc, by rw [hk]; rfl, hy⟩
  | str t => cases hx

end Operands

/-! ### Nodes -/

section Nodes

variable {f : Floats} {s : Scope} {l r e : Expr} {op : BinOp} {x y w : Val} {b : Big}

section Generated
-- What the code of a node leaves is computed from what its operands leave.
attribute [local simp] leaves genCode genBinary inferNumKind Code.eval numeric arith compare shift

theorem leaves_words {a b : Word} (hl : leaves s l = some (.word a))
    (hr : leaves s r = some (.word b)) (hptr : inferExprType s l ≠ .ptr)
    (h : numeric .word op a b = some w) : leaves s (.binary l op r) = some w := by
  obtain ⟨hkl, cl, xl, hcl, hel, hvl⟩ := leaves_word hl
  obtain ⟨hkr, cr, xr, hcr, her, hvr⟩ := leaves_word hr
  cases op <;>
    simp at h <;>
    simp [hkl, hkr, hcl, hcr, hptr, hel, her, hvl, hvr, genToKind, NumKind.max]
  all_goals first
    | (subst h; rfl)
    | (obtain ⟨hb, rfl⟩ := h; simp [hb])

theorem leaves_wide {a b : Big} (hl : leaves s l = some x) (hr : leaves s r = some y)
    (hx : promote x = some a) (hy : promote y = some b) (hk : x.kind.max y.kind = .big)
    (hptr : inferExprType s l ≠ .ptr) (h : numeric .big op a b = some w) :
    leaves s (.binary l op r) = some w := by
  obtain ⟨cl, cl', hcl, htl, hel⟩ := operand_big hl hx
  obtain ⟨cr, cr', hcr, htr, her⟩ := operand_big hr hy
  rw [inferNumKind_of_leaves hl] at htl
  rw [inferNumKind_of_leaves hr] at htr
  cases op <;>
    simp at h <;>
    simp [inferNumKind_of_leaves hl, inferNumKind_of_leaves hr, hk, htl, htr, hcl, hcr, hptr,
      hel, her]
  all_goals first
    | (subst h; rfl)
    | (obtain ⟨hb, rfl⟩ := h; simp [hb])

theorem leaves_shift_word {a count : Word} (hl : leaves s l = some (.word a))
    (hr : leaves s r = some (.word count)) (hop : op = .lshift ∨ op = .rshift) :
    leaves s (.binary l op r) = (shift op a count).map .word := by
  obtain ⟨hkl, cl, xl, hcl, hel, hvl⟩ := leaves_word hl
  obtain ⟨hkr, cr, xr, hcr, her, hvr⟩ := leaves_word hr
  rcases hop with rfl | rfl <;>
    simp [hkl, hkr, hcl, hcr, hel, her, hvl, hvr, genToKind, NumKind.max]

theorem leaves_shift_big {a : Big} {count : Word} (hl : leaves s l = some (.big a))
    (hr : leaves s r = some y) (hy : y.word? = some count) (hop : op = .lshift ∨ op = .rshift) :
    leaves s (.binary l op r) = (shift op a count).map .big := by
  obtain ⟨hkl, cl, hcl, hel⟩ := leaves_big hl
  obtain ⟨cr, cr', z, hcr, htr, her, hz⟩ := operand_word hr hy
  have hmax : NumKind.big.max (inferNumKind s r) = .big := by
    rw [inferNumKind_of_leaves hr]
    cases y <;> rfl
  rcases hop with rfl | rfl <;>
    simp [hkl, hcl, hcr, htr, hel, her, hz, hmax]

/-- A word shifted by a big is left in the low half of a wide slot. -/
theorem leaves_shift_mixed {a : Word} {b : Big} (hl : leaves s l = some (.word a))
    (hr : leaves s r = some (.big b)) (hop : op = .lshift ∨ op = .rshift) :
    leaves s (.binary l op r) = none := by
  obtain ⟨hkl, cl, xl, hcl, hel, hvl⟩ := leaves_word hl
  obtain ⟨hkr, cr, hcr, her⟩ := leaves_big hr
  rcases hop with rfl | rfl <;>
    simp [hkl, hkr, hcl, hcr, hel, her, hvl, genToKind, NumKind.max]

end Generated

theorem compare_signExtend (op : BinOp) (a b : Word) :
    compare op (a.signExtend 64) (b.signExtend 64) = compare op a b := by
  cases op <;>
    simp [compare, BitVec.slt_signExtend, BitVec.sle_signExtend, BitVec.signExtend_inj]

theorem signExtend_flag (t : Bool) : (flag t : Word).signExtend 64 = flag t := by
  cases t <;> decide

theorem setWidth_signExtend (b : Word) : (b.signExtend 64).setWidth 32 = b := by
  apply BitVec.eq_of_getLsbD_eq
  intro i hi
  simp [BitVec.getLsbD_signExtend, hi]
  omega

theorem lshift_words_iff (a b : Word) :
    a.signExtend 64 <<< (b.toNat % 64) = (a <<< (b.toNat % 32)).signExtend 64 ↔
      SafeWords .lshift a b := by
  unfold SafeWords
  by_cases hb : b.toNat % 64 < 32
  · rw [show b.toNat % 32 = b.toNat % 64 by omega]
    simpa [hb] using BitVec.shl_signExtend_iff a hb (by decide)
  · rw [show b.toNat % 64 = 32 + b.toNat % 32 by omega]
    simpa [show ¬ 32 + b.toNat % 32 < 32 by omega] using
      BitVec.shl_high_signExtend_iff (m := 64) a (Nat.mod_lt b.toNat (by decide)) rfl

theorem rshift_words_iff (a b : Word) :
    (a.signExtend 64).sshiftRight (b.toNat % 64) =
        (a.sshiftRight (b.toNat % 32)).signExtend 64 ↔ SafeWords .rshift a b := by
  unfold SafeWords
  by_cases hb : b.toNat % 64 < 32
  · rw [show b.toNat % 32 = b.toNat % 64 by omega]
    simpa [hb] using BitVec.sshiftRight_signExtend a (by decide) (b.toNat % 64)
  · rw [show b.toNat % 64 = 32 + b.toNat % 32 by omega]
    simpa [show ¬ 32 + b.toNat % 32 < 32 by omega] using
      BitVec.sshiftRight_high_signExtend_iff (m := 64) a (by decide) (b.toNat % 32)

theorem decided_words {a b : Word} (hl : leaves s l = some (.word a))
    (hr : leaves s r = some (.word b)) (hptr : inferExprType s l ≠ .ptr) :
    Decided (SafeWords op a b)
      (foldConstBinary f (.int (a.signExtend 64)) op (.int (b.signExtend 64)))
      (denoteBinary op (.word a) (.word b)) (leaves s (.binary l op r)) := by
  have hzero : b.signExtend 64 = 0#64 ↔ b = 0#32 := by
    simpa using BitVec.signExtend_inj b 0 (m := 64) (by decide)
  have hleft {w : Val} (h : numeric .word op a b = some w) := leaves_words hl hr hptr h
  have hcmp := compare_signExtend op a b
  cases op with
  | add =>
      have hadd := BitVec.add_signExtend_iff a b (m := 64) (by decide) (by decide)
      exact decided_word hadd rfl rfl (hleft rfl)
  | sub =>
      have hsub := BitVec.sub_signExtend_iff a b (m := 64) (by decide) (by decide)
      exact decided_word hsub rfl rfl (hleft rfl)
  | mul =>
      have hmul := BitVec.mul_signExtend_iff a b (m := 64) (by decide) (by decide)
      exact decided_word hmul rfl rfl (hleft rfl)
  | div =>
      by_cases hb : b = 0#32
      · refine decided_of_sound ?_ (sound_none (t := "constant division by zero") ?_ ?_)
        · simp [SafeWords, hb]
          decide
        · simp [foldConstBinary, hb]
        · simp [denoteBinary, numeric, arith, compare, hb]
      · have hdiv := BitVec.sdiv_signExtend_iff a b (m := 64) (by decide) (by decide)
        refine decided_word hdiv ?_ ?_ (hleft ?_)
        · simp [foldConstBinary, foldInts, arith, hzero, hb]
        · simp [denoteBinary, numeric, arith, hb]
        · simp [numeric, arith, hb]
  | mod =>
      by_cases hb : b = 0#32
      · refine decided_of_sound trivial (sound_none (t := "constant division by zero") ?_ ?_)
        · simp [foldConstBinary, hb]
        · simp [denoteBinary, numeric, arith, compare, hb]
      · have hrem := BitVec.srem_signExtend a b (m := 64) (by decide)
        refine decided_word (iff_of_true hrem trivial) ?_ ?_ (hleft ?_)
        · simp [foldConstBinary, foldInts, arith, hzero, hb]
        · simp [denoteBinary, numeric, arith, hb]
        · simp [numeric, arith, hb]
  | and | or | xor => exact decided_word (by simp [SafeWords]) rfl rfl (hleft rfl)
  | lshift =>
      refine decided_word (lshift_words_iff a b) ?_ rfl (leaves_shift_word hl hr (.inl rfl))
      simp [foldConstBinary, foldInts, shift, setWidth_signExtend]
  | rshift =>
      refine decided_word (rshift_words_iff a b) ?_ rfl (leaves_shift_word hl hr (.inr rfl))
      simp [foldConstBinary, foldInts, shift, setWidth_signExtend]
  | eq | neq | lt | gt | leq | geq =>
      refine decided_word (iff_of_true (signExtend_flag _).symm trivial) ?_ rfl (hleft rfl)
      simp only [foldConstBinary, foldInts, hcmp]
      rfl
  | power | logAnd | logOr => exact decided_of_sound trivial (sound_none rfl rfl)

/-- Two numbers one of which is a big: both readings work in 64 bits. -/
theorem decided_wide {a b : Big} (hl : leaves s l = some x) (hr : leaves s r = some y)
    (hx : promote x = some a) (hy : promote y = some b) (hk : x.kind.max y.kind = .big)
    (hptr : inferExprType s l ≠ .ptr)
    (hop : op ≠ .lshift ∧ op ≠ .rshift) (hd : denoteBinary op x y = numeric .big op a b) :
    Sound (foldConstBinary f (.int a) op (.int b)) (denoteBinary op x y)
      (leaves s (.binary l op r)) := by
  have hleft {w : Val} (h : numeric .big op a b = some w) := leaves_wide hl hr hx hy hk hptr h
  rw [hd]
  cases op with
  | add | sub | mul | and | or | xor => exact sound_some (w := .big _) rfl rfl (hleft rfl)
  | div =>
      by_cases hb : b = 0#64
      · exact sound_none (t := "constant division by zero") (by simp [foldConstBinary, hb])
          (by simp [numeric, arith, compare, hb])
      · have hv : numeric .big .div a b = some (.big (a.sdiv b)) := by simp [numeric, arith, hb]
        refine sound_some ?_ hv (hleft hv)
        simp [foldConstBinary, foldInts, arith, hb, Val.const]
  | mod =>
      by_cases hb : b = 0#64
      · exact sound_none (t := "constant division by zero") (by simp [foldConstBinary, hb])
          (by simp [numeric, arith, compare, hb])
      · have hv : numeric .big .mod a b = some (.big (a.srem b)) := by simp [numeric, arith, hb]
        refine sound_some ?_ hv (hleft hv)
        simp [foldConstBinary, foldInts, arith, hb, Val.const]
  | eq | neq | lt | gt | leq | geq =>
      refine sound_some (w := .word (flag _)) ?_ rfl (hleft rfl)
      simp only [foldConstBinary, foldInts, Val.const, signExtend_flag]
      rfl
  | lshift => exact absurd rfl hop.1
  | rshift => exact absurd rfl hop.2
  | power | logAnd | logOr => exact sound_none rfl rfl

theorem leaves_concat {a b : String} (hl : leaves s l = some (.str a))
    (hr : leaves s r = some (.str b)) :
    leaves s (.binary l .add r) =
      if inferExprType s l = .ptr then some (.str (a ++ b)) else none := by
  obtain ⟨hkl, cl, hcl, hel⟩ := leaves_str hl
  obtain ⟨hkr, cr, hcr, her⟩ := leaves_str hr
  split
  · next hptr => simp [leaves, genCode, hcl, hcr, hptr, Code.eval, hel, her, inferNumKind, hkl, hkr,
      NumKind.max]
  · next hptr => simp [leaves, genCode, genBinary, genToKind, hcl, hcr, hptr, Code.eval, hel, her,
      inferNumKind, hkl, hkr, NumKind.max]

theorem decided_shift_big {a : Big} {count : Word} (hl : leaves s l = some (.big a))
    (hr : leaves s r = some y) (hy : y.word? = some count)
    (hc : y.const = .int b) (hcount : b.setWidth 32 = count) (hop : op = .lshift ∨ op = .rshift) :
    Sound (foldConstBinary f (.int a) op y.const) (denoteBinary op (.big a) y)
      (leaves s (.binary l op r)) := by
  rw [leaves_shift_big hl hr hy hop, hc]
  rcases hop with rfl | rfl
  · exact sound_some (w := .big (a <<< (count.toNat % 64)))
      (by simp [foldConstBinary, foldInts, shift, hcount, Val.const])
      (by simp [denoteBinary, hy, shift]) rfl
  · exact sound_some (w := .big (a.sshiftRight (count.toNat % 64)))
      (by simp [foldConstBinary, foldInts, shift, hcount, Val.const])
      (by simp [denoteBinary, hy, shift]) rfl

/-- A string and a number: neither folded nor meant. -/
theorem mixed_error (h : (∃ t, x = .str t) ∧ (∀ t, y ≠ .str t) ∨
    (∀ t, x ≠ .str t) ∧ ∃ t, y = .str t) :
    Sound (foldConstBinary f x.const op y.const) (denoteBinary op x y)
      (leaves s (.binary l op r)) := by
  refine sound_none (t := s!"unsupported constant operator {op.debug}") ?_ ?_
  · cases x <;> cases y <;> simp_all [foldConstBinary, Val.const]
  · cases op <;> cases x <;> cases y <;> simp_all [denoteBinary]

theorem decided_binary (hl : leaves s l = some x) (hr : leaves s r = some y)
    (hptr : inferExprType s l = .ptr → ∃ t, x = .str t) :
    Decided (SafeBinary s l op x y) (foldConstBinary f x.const op y.const) (denoteBinary op x y)
      (leaves s (.binary l op r)) := by
  cases x with
  | word a =>
      have hne : inferExprType s l ≠ .ptr := fun h => by simpa using hptr h
      cases y with
      | word b => exact decided_words hl hr hne
      | big b =>
          by_cases hop : op = .lshift ∨ op = .rshift
          · have hnot : ¬ SafeBinary s l op (.word a) (.big b) := by
              simp only [SafeBinary]
              tauto
            have hleft := leaves_shift_mixed hl hr hop
            rcases hop with rfl | rfl
            · exact decided_lost hnot rfl hleft
            · exact decided_lost hnot rfl hleft
          · have hop' : op ≠ .lshift ∧ op ≠ .rshift := by tauto
            refine decided_of_sound hop' (decided_wide hl hr rfl rfl rfl hne hop' ?_)
            cases op <;> simp_all [denoteBinary]
      | str t => exact decided_of_sound trivial (mixed_error (.inr ⟨by simp, t, rfl⟩))
  | big a =>
      have hne : inferExprType s l ≠ .ptr := fun h => by simpa using hptr h
      cases y with
      | word b =>
          refine decided_of_sound trivial ?_
          by_cases hop : op = .lshift ∨ op = .rshift
          · exact decided_shift_big hl hr rfl rfl (setWidth_signExtend b) hop
          · have hop' : op ≠ .lshift ∧ op ≠ .rshift := by tauto
            refine decided_wide hl hr rfl rfl rfl hne hop' ?_
            cases op <;> simp_all [denoteBinary]
      | big b =>
          refine decided_of_sound trivial ?_
          by_cases hop : op = .lshift ∨ op = .rshift
          · exact decided_shift_big hl hr rfl rfl rfl hop
          · have hop' : op ≠ .lshift ∧ op ≠ .rshift := by tauto
            refine decided_wide hl hr rfl rfl rfl hne hop' ?_
            cases op <;> simp_all [denoteBinary]
      | str t => exact decided_of_sound trivial (mixed_error (.inr ⟨by simp, t, rfl⟩))
  | str a =>
      cases y with
      | word b => exact decided_of_sound trivial (mixed_error (.inl ⟨⟨a, rfl⟩, by simp⟩))
      | big b => exact decided_of_sound trivial (mixed_error (.inl ⟨⟨a, rfl⟩, by simp⟩))
      | str b =>
          by_cases hop : op = .add
          · subst hop
            have hleft := leaves_concat hl hr
            by_cases hp : inferExprType s l = .ptr
            · refine decided_of_sound (fun _ => hp) (sound_some (w := .str (a ++ b)) rfl rfl ?_)
              simpa [hp] using hleft
            · refine decided_lost (fun h => hp (h rfl)) rfl ?_
              simpa [hp] using hleft
          · refine decided_of_sound (fun h => absurd h hop)
              (sound_none (t := s!"unsupported constant operator {op.debug}") ?_ ?_)
            · simp [foldConstBinary, Val.const, hop]
            · cases op <;> simp_all [denoteBinary]

theorem toNat_flag (t : Bool) : (flag t : Big).toNat ≤ 1 := by
  cases t <;> decide

/-- Only the low word of a big is tested and replaced. -/
theorem not_big_iff (v : Big) :
    (v >>> 32) <<< 32 ||| flag (v.setWidth 32 = 0#32) = flag (v = 0) ↔ v.toNat < 2 ^ 32 := by
  have hhigh : ((v >>> 32) <<< 32).toNat = v.toNat / 2 ^ 32 * 2 ^ 32 := by
    rw [BitVec.toNat_shiftLeft, BitVec.toNat_ushiftRight, Nat.shiftRight_eq_div_pow,
      Nat.shiftLeft_eq]
    have := v.isLt
    omega
  constructor
  · intro h
    have hle : ((v >>> 32) <<< 32).toNat ≤ 1 := by
      refine Nat.le_trans ?_ (toNat_flag (v = 0))
      rw [← h, BitVec.toNat_or]
      exact Nat.left_le_or
    omega
  · intro h
    have hzero : (v >>> 32) <<< 32 = 0#64 := by
      apply BitVec.eq_of_toNat_eq
      rw [hhigh, Nat.div_eq_of_lt h]
      rfl
    have hlow : v.setWidth 32 = 0#32 ↔ v = 0 := by
      simp only [← BitVec.toNat_inj, BitVec.toNat_setWidth, Nat.mod_eq_of_lt h]
      rfl
    rw [hzero, BitVec.zero_or]
    simp only [hlow]

theorem setWidth_flag (t : Bool) : (flag t : Big).setWidth 32 = flag t := by
  cases t <;> decide

theorem decided_unary_word {op : UnaryOp} {v : Word} (h : leaves s e = some (.word v)) :
    Decided (SafeUnary op (.word v)) (foldUnary f op (.int (v.signExtend 64)))
      (denoteUnary op (.word v)) (leaves s (.unary op e)) := by
  obtain ⟨hk, c, z, hc, hz, hv⟩ := leaves_word h
  cases op with
  | neg =>
      have hneg := BitVec.neg_signExtend_iff v (m := 64) (by decide) (by decide)
      have hmin : v.signExtend 64 ≠ BitVec.intMin 64 := by
        intro heq
        have hint := congrArg BitVec.toInt heq
        rw [BitVec.toInt_signExtend_of_le (by decide)] at hint
        have hle := v.le_toInt
        rw [hint] at hle
        exact absurd hle (by decide)
      refine decided_word hneg ?_ rfl ?_
      · simp [foldUnary, hmin]
      · simp [leaves, genCode, genUnary, hk, hc, Code.eval, hz, hv, arith, inferNumKind]
  | not =>
      have hzero : v.signExtend 64 = 0#64 ↔ v = 0#32 := by
        simpa using BitVec.signExtend_inj v 0 (m := 64) (by decide)
      refine decided_word (iff_of_true (signExtend_flag _).symm trivial) ?_ rfl ?_
      · simp [foldUnary, hzero]
      · cases z with
        | word z =>
            cases hv
            simp [leaves, genCode, genUnary, hk, hc, Code.eval, hz, inferNumKind]
        | big z =>
            cases hv
            simp [leaves, genCode, genUnary, hk, hc, Code.eval, hz, inferNumKind,
              setWidth_flag]
        | str t => cases hv
  | bitNot =>
      have hnot := BitVec.signExtend_not (x := v) (v := 64) (by decide)
      refine decided_word (iff_of_true hnot.symm trivial) rfl rfl ?_
      have hxor : v ^^^ BitVec.allOnes 32 = ~~~v := BitVec.xor_allOnes
      simpa [leaves, genCode, genUnary, hk, hc, Code.eval, hz, hv, arith, inferNumKind] using hxor
  | ref => exact decided_of_sound trivial (sound_none rfl rfl)

theorem decided_unary_big {op : UnaryOp} {v : Big} (h : leaves s e = some (.big v)) :
    Decided (SafeUnary op (.big v)) (foldUnary f op (.int v)) (denoteUnary op (.big v))
      (leaves s (.unary op e)) := by
  obtain ⟨hk, c, hc, hz⟩ := leaves_big h
  cases op with
  | neg =>
      by_cases hmin : v = BitVec.intMin 64
      · refine .inr ⟨fun hs => hs hmin, .inl ?_⟩
        simp [foldUnary, hmin]
      · refine decided_of_sound hmin (sound_some (w := .big (-v)) ?_ rfl ?_)
        · simp [foldUnary, hmin, Val.const]
        · simp [leaves, genCode, genUnary, hk, hc, Code.eval, hz, arith, inferNumKind]
  | not =>
      have hleft : leaves s (.unary .not e) =
          some (.big ((v >>> 32) <<< 32 ||| flag (v.setWidth 32 = 0#32))) := by
        simp [leaves, genCode, genUnary, hk, hc, Code.eval, hz, inferNumKind]
      by_cases hlt : v.toNat < 2 ^ 32
      · refine decided_of_sound hlt (sound_some (w := .big (flag (v = 0))) rfl rfl ?_)
        rw [hleft, (not_big_iff v).mpr hlt]
      · refine .inr ⟨hlt, .inr ⟨_, rfl, fun w hd hl => ?_⟩⟩
        rw [hleft, ← hd] at hl
        exact absurd ((not_big_iff v).mp (Val.big.inj (Option.some.inj hl))) hlt
  | bitNot =>
      refine decided_of_sound trivial (sound_some (w := .big (~~~v)) rfl rfl ?_)
      have hxor : v ^^^ BitVec.allOnes 64 = ~~~v := BitVec.xor_allOnes
      simpa [leaves, genCode, genUnary, hk, hc, Code.eval, hz, arith, inferNumKind] using hxor
  | ref => exact decided_of_sound trivial (sound_none rfl rfl)

theorem decided_unary {op : UnaryOp} (h : leaves s e = some x) :
    Decided (SafeUnary op x) (foldUnary f op x.const) (denoteUnary op x)
      (leaves s (.unary op e)) := by
  cases x with
  | word v => exact decided_unary_word h
  | big v => exact decided_unary_big h
  | str t =>
      have hsafe : SafeUnary op (.str t) := by cases op <;> trivial
      refine decided_of_sound hsafe
        (sound_none (t := s!"unsupported constant operator {op.debug}") ?_ ?_) <;> cases op <;> rfl

theorem byte_iff (v : Word) : v &&& 255 = v ↔ 0 ≤ v.toInt ∧ v.toInt < 256 := by
  have hand : (v &&& 255).toNat = v.toNat % 256 := by
    rw [BitVec.toNat_and]
    exact Nat.and_two_pow_sub_one_eq_mod v.toNat 8
  rw [← BitVec.toNat_inj, hand, BitVec.toInt_eq_toNat_cond]
  have := v.isLt
  split <;> omega

/-- A cast to a byte keeps the low word of its operand whole. -/
theorem decided_byte {u : Big} {v : Word} (hv : u.setWidth 32 = v) (hf : folded = .ok (.int u))
    (hd : denoted = some (.word (v &&& 255))) (hl : left = some (.word v)) :
    Decided (0 ≤ u.toInt ∧ u.toInt < 256) folded denoted left := by
  have hwide := BitVec.eq_signExtend_setWidth_iff (n := 32) (by decide) (by decide) u
  rw [hv] at hwide
  by_cases hs : 0 ≤ u.toInt ∧ u.toInt < 256
  · have hu : u = v.signExtend 64 := hwide.mpr ⟨by have := hs.1; omega, by have := hs.2; omega⟩
    have hint : u.toInt = v.toInt := by rw [hu, BitVec.toInt_signExtend_of_le (by decide)]
    have hand : v &&& 255 = v := (byte_iff v).mpr (hint ▸ hs)
    exact decided_of_sound hs (sound_some (w := .word v) (by rw [hf, hu]; rfl) (by rw [hd, hand]) hl)
  · refine .inr ⟨hs, .inr ⟨_, hf, fun w hw hw' heq => hs ?_⟩⟩
    rw [hd] at hw
    rw [hl, ← hw] at hw'
    have hand : v &&& 255 = v := (Val.word.inj (Option.some.inj hw')).symm
    cases hw
    rw [hand] at heq
    have hint : u.toInt = v.toInt := by
      rw [← ConstVal.int.inj heq, BitVec.toInt_signExtend_of_le (by decide)]
    exact hint ▸ (byte_iff v).mp hand

theorem decided_cast {ty : BasicType} (hty : ty ≠ .real) (h : leaves s e = some x)
    (hptr : inferExprType s e = .ptr → ∃ t, x = .str t) (harray : inferExprType s e ≠ .array) :
    Decided (SafeCast ty x) (foldCast f (.basic ty) x.const) (denoteCast ty x)
      (leaves s (.cast (.basic ty) e)) := by
  cases x with
  | word v =>
      have hne : inferExprType s e ≠ .ptr := fun h => by simpa using hptr h
      obtain ⟨hk, c, z, hc, hz, hv⟩ := leaves_word h
      have hread : z.readAt .word = some (.word v) := by cases z <;> cases hv <;> rfl
      cases ty with
      | int =>
          refine decided_of_sound trivial (sound_some (w := .word v) rfl rfl ?_)
          simp [leaves, genCode, genCast, hk, hc, hz, hne, hread, inferNumKind, typeNumKind]
      | byte =>
          show Decided (0 ≤ v.toInt ∧ v.toInt < 256) _ _ _
          rw [← BitVec.toInt_signExtend_of_le (x := v) (v := 64) (by decide)]
          refine decided_byte (setWidth_signExtend v) rfl rfl ?_
          simp [leaves, genCode, genCast, hc, hz, hread, inferNumKind, typeNumKind]
      | big =>
          refine decided_of_sound trivial (sound_some (w := .big (v.signExtend 64)) rfl rfl ?_)
          simp [leaves, genCode, genCast, hk, hc, hz, hv, Code.eval, inferNumKind, typeNumKind]
      | string =>
          refine decided_of_sound trivial (sound_some (w := .str (toString v.toInt)) ?_ rfl ?_)
          · simp [foldCast, Val.const, BitVec.toInt_signExtend_of_le]
          · simp [leaves, genCode, genCast, hk, hc, hz, hv, harray, Code.eval, inferNumKind,
              typeNumKind]
      | real => exact absurd rfl hty
  | big v =>
      obtain ⟨hk, c, hc, hz⟩ := leaves_big h
      cases ty with
      | int =>
          have hwide := BitVec.eq_signExtend_setWidth_iff (n := 32) (by decide) (by decide) v
          refine decided_word hwide rfl rfl ?_
          simp [leaves, genCode, genCast, hk, hc, hz, Code.eval, inferNumKind, typeNumKind]
      | byte =>
          refine decided_byte rfl rfl rfl ?_
          simp [leaves, genCode, genCast, hc, hz, inferNumKind, typeNumKind]
      | big =>
          refine decided_of_sound trivial (sound_some (w := .big v) rfl rfl ?_)
          simp [leaves, genCode, genCast, hk, hc, hz, inferNumKind, typeNumKind]
      | string =>
          refine decided_of_sound trivial (sound_some (w := .str (toString v.toInt)) rfl rfl ?_)
          simp [leaves, genCode, genCast, hk, hc, hz, harray, Code.eval, inferNumKind, typeNumKind]
      | real => exact absurd rfl hty
  | str t =>
      obtain ⟨hk, c, hc, hz⟩ := leaves_str h
      have hnot : ¬ SafeCast ty (.str t) := by simp [SafeCast]
      cases ty with
      | int | byte | big =>
          refine .inr ⟨hnot, .inr ⟨_, rfl, fun w hd _ => ?_⟩⟩
          cases hd
          simp [Val.const]
      | string =>
          refine decided_lost hnot rfl ?_
          simp [leaves, genCode, genCast, hk, hc, hz, harray, Code.eval]
      | real => exact absurd rfl hty

theorem decided_len (h : leaves s e = some x) (harray : inferExprType s e ≠ .array) :
    Decided (∀ t, x = .str t → Fits 32 (charCount t : Big).toInt) (foldLen x.const)
      (x.str?.map fun t => .word (charCount t)) (leaves s (.len e)) := by
  cases x with
  | str t =>
      obtain ⟨hk, c, hc, hz⟩ := leaves_str h
      have hwide := BitVec.eq_signExtend_setWidth_iff (n := 32) (by decide) (by decide)
        (charCount t : Big)
      have hlow : (charCount t : Big).setWidth 32 = charCount t := by
        unfold charCount
        exact BitVec.setWidth_ofNat_of_le (by decide) _
      rw [hlow] at hwide
      refine decided_word (v := charCount t) (by simpa using hwide) rfl rfl ?_
      simp [leaves, genCode, hc, hz, harray, Code.eval, inferNumKind]
  | word v => exact decided_of_sound (by simp) (sound_none rfl rfl)
  | big v => exact decided_of_sound (by simp) (sound_none rfl rfl)

end Nodes

/-! ### Leaves -/

theorem isWide_eq_false_iff (v : Big) : isWide v = false ↔ Fits 32 v.toInt := by
  simp only [isWide, Fits, Bool.or_eq_false_iff, decide_eq_false_iff_not]
  omega

theorem const_word {v : Big} (h : isWide v = false) :
    (Val.word (v.setWidth 32)).const = .int v := by
  have hwide := BitVec.eq_signExtend_setWidth_iff (n := 32) (by decide) (by decide) v
  exact congrArg ConstVal.int (hwide.mpr ((isWide_eq_false_iff v).mp h)).symm

/-- A constant used by name, or a literal, is left as it was declared. -/
theorem denoteConst_sound {v : ConstVal} (hreal : ∀ bits, v ≠ .real bits) :
    ∃ w, w.const = v ∧ denoteConst v = some w ∧
      (genConst v).bind (fun c => c.eval.bind (·.readAt v.numKind)) = some w := by
  cases v with
  | int v =>
      cases hw : isWide v with
      | true => exact ⟨.big v, rfl, by simp [denoteConst, hw], by
          simp [genConst, hw, Code.eval, ConstVal.numKind]⟩
      | false => exact ⟨.word (v.setWidth 32), const_word hw, by simp [denoteConst, hw], by
          simp [genConst, hw, Code.eval, ConstVal.numKind]⟩
  | str t => exact ⟨.str t, rfl, rfl, rfl⟩
  | real bits => exact absurd rfl (hreal bits)

section Trees

variable {s : Scope} {e : Expr} {x : Val}

/-- What the compiler takes for a pointer is a string. -/
theorem ConstExpr.str_of_ptr (he : ConstExpr s e) (hptr : inferExprType s e = .ptr)
    (hx : denote s e = some x) : ∃ t, x = .str t := by
  induction he generalizing x with
  | intLit v | charLit v | modQual _ _ _ | unary _ _ | len _ _ => cases hptr
  | stringLit t => exact ⟨t, by simpa [denote] using hx.symm⟩
  | @ident name v _ hvar hconst hreal =>
      cases v with
      | str t => exact ⟨t, by simpa [denote, hconst, denoteConst] using hx.symm⟩
      | int v => simp [inferExprType, hvar, hconst, ConstVal.valType] at hptr
      | real bits => exact absurd rfl (hreal bits)
  | @binary l r op hl hr ihl ihr =>
      have hop : op = .add ∧ inferExprType s l = .ptr := by
        cases op <;> simp_all [inferExprType]
      obtain ⟨rfl, hlptr⟩ := hop
      simp only [denote, Option.bind_eq_bind, Option.bind_eq_some_iff] at hx
      obtain ⟨a, ha, b, -, hab⟩ := hx
      obtain ⟨t, rfl⟩ := ihl hlptr ha
      cases b with
      | str u => exact ⟨t ++ u, by simpa [denoteBinary] using hab.symm⟩
      | word v | big v => simp [denoteBinary] at hab
  | @cast ty e hty he ih =>
      simp only [denote, Option.bind_eq_bind, Option.bind_eq_some_iff] at hx
      obtain ⟨a, -, ha⟩ := hx
      cases ty with
      | string => cases a <;> exact ⟨_, (Option.some.inj ha).symm⟩
      | int | byte | big | real => simp [inferExprType] at hptr

theorem ConstExpr.ne_array (he : ConstExpr s e) : inferExprType s e ≠ .array := by
  cases he with
  | intLit v | charLit v | stringLit t | modQual _ _ _ | unary _ | len _ => simp [inferExprType]
  | @ident name v _ hvar hconst hreal =>
      cases v <;> simp [inferExprType, hvar, hconst, ConstVal.valType]
  | @binary l r op hl hr =>
      cases op <;> simp [inferExprType]
      split <;> simp
  | @cast ty e hty he => cases ty <;> simp [inferExprType]

theorem foldInterface_or {prior : String → Option ConstVal} (hprior : Prior s prior)
    (he : ConstExpr s e) : foldInterface f s prior iota e = foldConst f s iota e ∨
      ∃ text, foldInterface f s prior iota e = .error (.error text) := by
  unfold foldInterface foldConst
  induction he with
  | intLit v | charLit v | stringLit t | modQual _ _ _ => exact .inl rfl
  | @ident name v hname _ hconst _ =>
      cases hlookup : prior name with
      | none =>
          refine .inr ⟨s!"`{name}` is not a constant", ?_⟩
          simp only [foldWith, if_neg hname, hlookup]
      | some w =>
          have hsame := hprior name w hlookup
          exact .inl (by simp only [foldWith, if_neg hname, hlookup, hsame])
  | unary he ih | cast hty he ih =>
      rcases ih with ih | ⟨text, ih⟩
      · exact .inl (by simp only [foldWith, ih])
      · exact .inr ⟨text, by simp only [foldWith, ih]; rfl⟩
  | binary hl hr ihl ihr =>
      rcases ihl with ihl | ⟨text, ihl⟩
      · rcases ihr with ihr | ⟨text, ihr⟩
        · exact .inl (by simp only [foldWith, ihl, ihr])
        · simp only [foldWith, ihl, ihr]
          cases foldWith f true s.consts s.qualifiedConsts iota _ with
          | ok v => exact .inr ⟨text, rfl⟩
          | error text => exact .inl rfl
      · exact .inr ⟨text, by simp only [foldWith, ihl]; rfl⟩
  | len he ih => exact .inr ⟨_, rfl⟩

/-- A variable that is as wide as its initialiser loses nothing of a value that is right. -/
theorem Agree.global (h : Agree folded (denote s e) (leaves s e)) :
    AgreeGlobal (inferNumKind s e) folded (denote s e) (leaves s e) := by
  refine ⟨h.1, fun v hv => ?_⟩
  obtain ⟨w, hd, hl, rfl⟩ := h.2 v hv
  refine ⟨w, hd, hl, ?_⟩
  rw [inferNumKind_of_leaves hl]
  cases w with
  | word a => exact congrArg (some ∘ Val.word) (setWidth_signExtend a)
  | big a => rfl
  | str t => rfl

/-- The folder of the interfaces adds nothing: it folds less, to the same values. -/
theorem agrees_iff (he : ConstExpr s e) :
    Agrees f s iota e ↔ Agree (foldConst f s iota e) (denote s e) (leaves s e) := by
  refine ⟨Agrees.con, fun h => ⟨h, fun prior hprior => ?_, h.global⟩⟩
  rcases foldInterface_or f iota hprior he with heq | ⟨text, heq⟩
  · rwa [heq]
  · rw [heq]
    exact ⟨by simp, fun v hv => by cases hv⟩

theorem Decided.congr {safe safe' : Prop} (hiff : safe ↔ safe')
    (h : Decided safe folded denoted left) : Decided safe' folded denoted left := by
  unfold Decided at *
  rwa [hiff] at h

/-- A node is settled by its operands: sound ones make it sound or unsound as it is safe or not. -/
theorem unary_node {op : UnaryOp} (h : Sound (foldConst f s iota e) (denote s e) (leaves s e)) :
    Decided (SafeNode s (.unary op e)) (foldConst f s iota (.unary op e)) (denote s (.unary op e))
      (leaves s (.unary op e)) := by
  have hfold : foldConst f s iota (.unary op e) =
      (foldConst f s iota e).bind (foldUnary f op) := rfl
  have hdenote : denote s (.unary op e) = (denote s e).bind (denoteUnary op) := rfl
  rcases h with ⟨x, hf, hd, hl⟩ | ⟨⟨text, hf⟩, hd⟩
  · rw [hfold, hf, hdenote, hd]
    exact (decided_unary hl).congr (by simp [SafeNode, hd])
  · rw [hfold, hf, hdenote, hd]
    exact decided_of_sound (by simp [SafeNode, hd]) (sound_none rfl rfl)

theorem cast_node {ty : BasicType} (hty : ty ≠ .real) (he : ConstExpr s e)
    (h : Sound (foldConst f s iota e) (denote s e) (leaves s e)) :
    Decided (SafeNode s (.cast (.basic ty) e)) (foldConst f s iota (.cast (.basic ty) e))
      (denote s (.cast (.basic ty) e)) (leaves s (.cast (.basic ty) e)) := by
  have hfold : foldConst f s iota (.cast (.basic ty) e) =
      (foldConst f s iota e).bind (foldCast f (.basic ty)) := rfl
  have hdenote : denote s (.cast (.basic ty) e) = (denote s e).bind (denoteCast ty) := rfl
  rcases h with ⟨x, hf, hd, hl⟩ | ⟨⟨text, hf⟩, hd⟩
  · rw [hfold, hf, hdenote, hd]
    exact (decided_cast hty hl (fun h => he.str_of_ptr h hd) he.ne_array).congr
      (by simp [SafeNode, hd])
  · rw [hfold, hf, hdenote, hd]
    exact decided_of_sound (by simp [SafeNode, hd]) (sound_none rfl rfl)

theorem len_node (he : ConstExpr s e)
    (h : Sound (foldConst f s iota e) (denote s e) (leaves s e)) :
    Decided (SafeNode s (.len e)) (foldConst f s iota (.len e)) (denote s (.len e))
      (leaves s (.len e)) := by
  have hfold : foldConst f s iota (.len e) = (foldConst f s iota e).bind foldLen := rfl
  have hdenote : denote s (.len e) =
      (denote s e).bind fun x => x.str?.bind fun t => some (.word (charCount t)) := rfl
  rcases h with ⟨x, hf, hd, hl⟩ | ⟨⟨text, hf⟩, hd⟩
  · rw [hfold, hf, hdenote, hd]
    have hmap : (x.str?.bind fun t => some (.word (charCount t))) =
        x.str?.map fun t => Val.word (charCount t) := by cases x <;> rfl
    refine Decided.congr ?_ (hmap ▸ decided_len hl he.ne_array)
    simp [SafeNode, hd]
  · rw [hfold, hf, hdenote, hd]
    exact decided_of_sound (by simp [SafeNode, hd]) (sound_none rfl rfl)

theorem binary_node {l r : Expr} {op : BinOp} (hcl : ConstExpr s l)
    (hl : Sound (foldConst f s iota l) (denote s l) (leaves s l))
    (hr : Sound (foldConst f s iota r) (denote s r) (leaves s r)) :
    Decided (SafeNode s (.binary l op r)) (foldConst f s iota (.binary l op r))
      (denote s (.binary l op r)) (leaves s (.binary l op r)) := by
  have hfold : foldConst f s iota (.binary l op r) =
      (foldConst f s iota l).bind fun a => (foldConst f s iota r).bind fun b =>
        foldConstBinary f a op b := rfl
  have hdenote : denote s (.binary l op r) =
      (denote s l).bind fun a => (denote s r).bind fun b => denoteBinary op a b := rfl
  rcases hl with ⟨x, hfl, hdl, hll⟩ | ⟨⟨text, hfl⟩, hdl⟩
  · rcases hr with ⟨y, hfr, hdr, hlr⟩ | ⟨⟨text, hfr⟩, hdr⟩
    · rw [hfold, hfl, hfr, hdenote, hdl, hdr]
      exact (decided_binary hll hlr fun h => hcl.str_of_ptr h hdl).congr
        (by simp [SafeNode, hdl, hdr])
    · rw [hfold, hfl, hfr, hdenote, hdl, hdr]
      exact decided_of_sound (by simp [SafeNode, hdr]) (sound_none rfl rfl)
  · rw [hfold, hfl, hdenote, hdl]
    exact decided_of_sound (by simp [SafeNode, hdl]) (sound_none rfl rfl)

theorem constant_leaf {v : ConstVal} (hreal : ∀ bits, v ≠ .real bits)
    (hf : foldConst f s iota e = .ok v) (hd : denote s e = denoteConst v)
    (hg : genCode s e = genConst v) (hk : inferNumKind s e = v.numKind) :
    Sound (foldConst f s iota e) (denote s e) (leaves s e) := by
  obtain ⟨w, hw, hden, hrun⟩ := denoteConst_sound hreal
  refine sound_some (w := w) (by rw [hf, hw]) (by rw [hd, hden]) ?_
  rw [← hrun, ← hg, ← hk]
  rfl

/-- A constant of an interface is always taken for a word. -/
theorem modQual_node {module member : String} {v : ConstVal}
    (hvar : s.moduleHandleType module = none) (hconst : s.qualifiedConsts module member = some v)
    (hreal : ∀ bits, v ≠ .real bits) :
    Decided (SafeNode s (.modQual (.ident module) member))
      (foldConst f s iota (.modQual (.ident module) member))
      (denote s (.modQual (.ident module) member))
      (leaves s (.modQual (.ident module) member)) := by
  have hf : foldConst f s iota (.modQual (.ident module) member) = .ok v := by
    simp [foldConst, foldWith, hconst]
  have hd : denote s (.modQual (.ident module) member) = denoteConst v := by
    simp [denote, hconst]
  have hg : genCode s (.modQual (.ident module) member) = genConst v := by
    simp [genCode, hvar, hconst]
  cases v with
  | int v =>
      cases hw : isWide v with
      | false =>
          refine decided_of_sound (by simp [SafeNode, hconst, hw])
            (constant_leaf f iota hreal hf hd hg ?_)
          simp [ConstVal.numKind, hw, inferNumKind]
      | true =>
          refine .inr ⟨by simp [SafeNode, hconst, hw], .inr ⟨_, hf, fun w hd' hl => ?_⟩⟩
          rw [hd] at hd'
          simp [denoteConst, hw] at hd'
          simp [leaves, hg, genConst, hw, Code.eval, inferNumKind, ← hd'] at hl
  | str t =>
      exact decided_of_sound (by simp [SafeNode, hconst]) (constant_leaf f iota hreal hf hd hg rfl)
  | real bits => exact absurd rfl (hreal bits)

/-- One node of the induction: what its operands give, and what it adds. -/
theorem Decided.step {safe operandsAgree operandsSafe : Prop}
    (h : operandsSafe → Decided safe folded denoted left)
    (hoperands : operandsAgree ↔ operandsSafe) :
    (Agree folded denoted left ∧ operandsAgree ↔ safe ∧ operandsSafe) ∧
      (safe ∧ operandsSafe → Sound folded denoted left) := by
  constructor
  · constructor
    · rintro ⟨ha, ho⟩
      have hs := hoperands.mp ho
      exact ⟨(h hs).agree_iff.mp ha, hs⟩
    · rintro ⟨hs, ho⟩
      exact ⟨(h ho).agree_iff.mpr hs, hoperands.mpr ho⟩
  · rintro ⟨hs, ho⟩
    exact (h ho).sound hs

theorem Decided.leaf {safe : Prop} (h : Decided safe folded denoted left) :
    (Agree folded denoted left ↔ safe) ∧ (safe → Sound folded denoted left) :=
  ⟨h.agree_iff, h.sound⟩

theorem throughout_safe (he : ConstExpr s e) :
    (Throughout (Agrees f s iota) e ↔ Throughout (SafeNode s) e) ∧
      (Throughout (SafeNode s) e → Sound (foldConst f s iota e) (denote s e) (leaves s e)) := by
  induction he with
  | intLit v =>
      simp only [Throughout, agrees_iff f iota (.intLit v)]
      exact (decided_of_sound trivial
        (constant_leaf f iota (v := .int v) (by simp) rfl rfl rfl rfl)).leaf
  | charLit v =>
      simp only [Throughout, agrees_iff f iota (.charLit v)]
      exact (decided_of_sound trivial (sound_some (w := .word v) rfl rfl rfl)).leaf
  | stringLit t =>
      simp only [Throughout, agrees_iff f iota (.stringLit t)]
      exact (decided_of_sound trivial (sound_some (w := .str t) rfl rfl rfl)).leaf
  | ident hname hvar hconst hreal =>
      simp only [Throughout, agrees_iff f iota (.ident hname hvar hconst hreal)]
      refine (decided_of_sound trivial (constant_leaf f iota hreal ?_ ?_ ?_ ?_)).leaf
      · simp [foldConst, foldWith, hname, hconst]
      · simp [denote, hconst]
      · simp [genCode, hvar, hconst]
      · simp [inferNumKind, hvar, hconst]
  | modQual hvar hconst hreal =>
      simp only [Throughout, agrees_iff f iota (.modQual hvar hconst hreal)]
      exact (modQual_node f iota hvar hconst hreal).leaf
  | unary he ih =>
      simp only [Throughout, agrees_iff f iota (.unary he)]
      exact Decided.step (fun hs => unary_node f iota (ih.2 hs)) ih.1
  | binary hl hr ihl ihr =>
      simp only [Throughout, agrees_iff f iota (.binary hl hr)]
      exact Decided.step (fun hs => binary_node f iota hl (ihl.2 hs.1) (ihr.2 hs.2))
        (and_congr ihl.1 ihr.1)
  | cast hty he ih =>
      simp only [Throughout, agrees_iff f iota (.cast hty he)]
      exact Decided.step (fun hs => cast_node f iota hty he (ih.2 hs)) ih.1
  | len he ih =>
      simp only [Throughout, agrees_iff f iota (.len he)]
      exact Decided.step (fun hs => len_node f iota he (ih.2 hs)) ih.1

end Trees

/-! ### The law -/

/-- A constant expression and every expression it is built from fold to the value that their code
leaves, wherever they stand, exactly when no operator among them overflows its operands' width. -/
theorem folds_as_run_iff {e : Expr} (he : ConstExpr s e) :
    Throughout (Agrees f s iota) e ↔ Throughout (SafeNode s) e :=
  (throughout_safe f iota he).1

/-- `big 1 << 40` folds as it runs. -/
theorem big_shift_folds_as_run :
    Throughout (Agrees ⟨fun a _ => a, fun a _ => a, fun a _ => a, fun a _ => a, id, id, id⟩ {} 0)
      (.binary (.cast (.basic .big) (.intLit 1)) .lshift (.intLit 40)) := by
  refine (folds_as_run_iff _ {} 0 (.binary (.cast (by decide) (.intLit 1)) (.intLit 40))).mpr ?_
  refine ⟨?_, ⟨?_, trivial⟩, trivial⟩
  · intro x y hx hy
    cases hx
    cases hy
    trivial
  · intro x hx
    cases hx
    trivial

/-- `2147483647 + 1` folds to 2147483648, and its code leaves -2147483648. -/
theorem folding_wider_than_run :
    ¬ ∀ (f : Floats) (s : Scope) (iota : Big) (e : Expr), ConstExpr s e → Agrees f s iota e := by
  intro h
  have he : ConstExpr {} (.binary (.intLit 2147483647) .add (.intLit 1)) :=
    .binary (.intLit _) (.intLit _)
  obtain ⟨w, hd, -, hw⟩ :=
    (h ⟨fun a _ => a, fun a _ => a, fun a _ => a, fun a _ => a, id, id, id⟩ {} 0 _ he).1.2 _ rfl
  cases hd
  exact absurd hw (by decide)

end RiceVM.Limbo
