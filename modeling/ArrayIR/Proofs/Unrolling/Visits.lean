/-
  ArrayIR.Proofs.Unrolling.Visits — the counters that an unrolled loop visits.

  They show in a loop that calls a function on its counter and on a value that is
  carried along (`Sweep`): the loop folds the function, whatever it does, over the
  counters. Unrolled it folds it over the counters of the copies, and then over those
  of the loop left over. Together these are the start and every step from it that is
  below the stop, in order (`sweep_visits`), if the range of the loop and the long step
  are within the range of the counter's type. If one of them wraps, the counters may be
  others, or there may be none (`wrapped_sweeps_differ`).
-/

import ArrayIR.Proofs.Loops
import ArrayIR.Proofs.Unrolling.Walk

namespace ArrayIR

open NameMap (get?_insert_of_ne get?_insert_self)
open Eval

/-! ## Code that folds -/

namespace Eval

/-- Where the locals are as `A` says of a value, the code folds `f` over the integers, starting with the value,
and goes on with locals as `B` says of the result. -/
def Folds (f : Value → Int → Exec Value) (is : List Int) (A : Locals → Value → Prop) (x : Locals → Exec Flow)
    (B : Locals → Value → Prop) : Prop :=
  ∀ (L : Locals) (v : Value), A L v → ∀ {β : Type} {K : Flow → Exec β} {K' : Value → Exec β},
    (∀ L' v', B L' v' → K (.next L') = K' v') → x L >>= K = is.foldlM f v >>= K'

namespace Folds

variable {f : Value → Int → Exec Value} {is js : List Int} {A B C : Locals → Value → Prop} {x y : Locals → Exec Flow}

/-- Code that goes on at once. -/
theorem of_pure (h : ∀ L v, A L v → ∃ L1, x L = pure (.next L1) ∧ B L1 v) : Folds f [] A x B := by
  intro L v hA β K K' hK
  obtain ⟨L1, hx, hB⟩ := h L v hA
  rw [hx, pure_bind, hK L1 v hB, List.foldlM_nil, pure_bind]

/-- One step, where the code goes on after it. -/
theorem of_bind {i : Int}
    (h : ∀ L v, A L v → ∃ g : Value → Locals, x L = (f v i >>= fun u => pure (.next (g u))) ∧ ∀ u, B (g u) u) :
    Folds f [i] A x B := by
  intro L v hA β K K' hK
  obtain ⟨g, hx, hB⟩ := h L v hA
  rw [hx, bind_assoc, List.foldlM_cons, bind_assoc]
  refine bind_congr fun u => ?_
  rw [pure_bind, hK _ u (hB u), List.foldlM_nil, pure_bind]

theorem andThen (h : Folds f is A x B) (h' : Folds f js B y C) :
    Folds f (is ++ js) A (fun L => x L >>= (·.andThen y)) C := by
  intro L v hA β K K' hK
  rw [bind_assoc, List.foldlM_append, bind_assoc]
  exact h L v hA fun L' v' hB => h' L' v' hB hK

theorem append {call : Caller} {fuel : Nat} {ss ts : Block} (h : Folds f is A (block call fuel ss) B)
    (h' : Folds f js B (block call fuel ts) C) : Folds f (is ++ js) A (block call fuel (ss ++ ts)) C := by
  rw [show block call fuel (ss ++ ts) = _ from funext (block_append call fuel ss ts)]
  exact h.andThen h'

/-- A counted loop, from what an iteration does. -/
theorem repeatCounted {var : VarName} {step : Int} {body : Locals → Exec Flow} {again : Locals → Exec Locals}
    {js : Int → List Int} (k : Nat) (i : Int) (h : ∀ j ∈ steps step k i,
      Folds f (js j) A (fun L => body (L.insert var (.ofInt j)) >>=
        (·.andThen fun L => do return .next (← again L))) A) :
    Folds f ((steps step k i).flatMap js) A (repeatCounted var step body again k i) A := by
  induction k generalizing i with
  | zero => exact of_pure fun L v hA => ⟨L, rfl, hA⟩
  | succ k ih =>
    intro L v hA β K K' hK
    rw [steps] at h ⊢
    obtain ⟨h1, hk⟩ := List.forall_mem_cons.mp h
    have hall := (h1.andThen (ih (i + step) hk)) L v hA hK
    rw [List.flatMap_cons, ← hall, repeatCounted_succ, bind_assoc, bind_assoc, bind_assoc]
    refine bind_congr fun fl => ?_
    cases fl with
    | returned u => rfl
    | next L1 =>
      show (again L1 >>= _) >>= K = (again L1 >>= _) >>= _
      rw [bind_assoc, bind_assoc]
      rfl

/-- What an iteration of a counted loop does, from what its body does. -/
theorem iteration {var : VarName} {i : Int} {again : Locals → Exec Locals} (h : Folds f is A x B)
    (hA : ∀ L v, C L v → A (L.insert var (.ofInt i)) v) (hB : ∀ L v, B L v → ∃ L1, again L = pure L1 ∧ C L1 v) :
    Folds f is C (fun L => x (L.insert var (.ofInt i)) >>= (·.andThen fun L => do return .next (← again L))) C := by
  intro L v hL β K K' hK
  rw [bind_assoc]
  refine h _ v (hA L v hL) fun L1 u hu => ?_
  obtain ⟨L2, hagain, hL2⟩ := hB L1 u hu
  show (again L1 >>= fun L => pure (Flow.next L)) >>= K = K' u
  rw [hagain, pure_bind, pure_bind]
  exact hK L2 u hL2

end Folds

end Eval

namespace Renaming

/-- What a name stands for is evaluated without looking at the buffers. -/
theorem expr_subst_var {r : Renaming} {L : Locals} {x : VarName} {v : Value} (h : r.value? L x = some v)
    (call : Caller) (t : Ty) : Eval.expr call L (r.subst (.var x t)) = pure v := by
  unfold value? at h
  rw [subst_var]
  cases hx : r.renames.get? x with
  | none =>
    simp only [hx] at h
    exact expr_atom (e := .var x t) h call
  | some e =>
    rw [hx] at h
    exact expr_atom h call

end Renaming

/-- Binding the names leaves the condition as it is. -/
def Unbound (ys : List VarName) (I : Locals → Prop) : Prop := ∀ L, I L → ∀ y ∈ ys, ∀ u, I (L.insert y u)

theorem Unbound.mono {ys zs : List VarName} {I : Locals → Prop} (h : Unbound ys I)
    (hz : ∀ z ∈ zs, z ∈ ys) : Unbound zs I :=
  fun L hL z hz' => h L hL z (hz z hz')

namespace Unrolling

/-- The bounds of an upward loop, the distance between them and `n` steps at once are within the range of the type. -/
structure Spans (t : ScalarTy) (n : Nat) (a b d : Int) : Prop where
  start : t.Fits a
  stop : t.Fits b
  pos : 0 < d
  range : t.Fits (b - a)
  long : t.Fits (n * d)

theorem Spans.step {t : ScalarTy} {n : Nat} {a b d : Int} (h : Spans t n a b d) (hn : 0 < n) : t.Fits d := by
  have hpos := h.pos
  have : 1 * d ≤ n * d := Int.mul_le_mul_of_nonneg_right (by omega) (by omega)
  exact (ScalarTy.fits_zero t).of_between h.long (by omega)

/-- A loop that carries a value along, and calls a function on its counter and on the value. -/
structure Sweep where
  counter : Counter
  counterTy : ScalarTy
  carried : VarName
  init : Expr
  next : VarName
  ty : Ty
  fn : FnName

namespace Sweep

def loop (w : Sweep) : Loop where
  counter := w.counter
  body := [.assign (.var w.next w.ty) (.call w.fn [.var w.counter.var (.scalar w.counterTy), .var w.carried w.ty] w.ty)]
  merge := .ofList [(w.carried, w.init, .var w.next w.ty)]
  counterTy := .scalar w.counterTy

/-- The loop, and the value that it ends with. -/
def body (w : Sweep) : Block := [.forLoop w.counter w.loop.body w.loop.merge, .ret (.var w.carried w.ty)]

/-- The bounds of the loop and the first value to carry, where it starts. -/
structure Starts (w : Sweep) (call : Caller) (L : Locals) (a b d : Int) (v : Value) : Prop where
  start : expr call L w.counter.start = pure (.ofInt a)
  stop : expr call L w.counter.stop = pure (.ofInt b)
  step : expr call L w.counter.step = pure (.ofInt d)
  init : expr call L w.init = pure v

/-- What the loop does for a counter. -/
def visit (w : Sweep) (call : Caller) (v : Value) (i : Int) : Exec Value := call w.fn [.ofInt i, v]

section Copies

variable {w : Sweep} {call : Caller} {fuel n k : Nat} {r r' : Renaming} {out : Block} {I : Locals → Prop} {i d : Int}

/-- What the counter and the carried value stand for in a copy. -/
theorem values_of_takes (hne : w.counter.var ≠ w.carried) {x y : VarName} {t : Ty} {r1 : Renaming}
    (h : Renaming.Takes w.loop.merge.keys [x] (r.bind w.loop.counter.var (.var y t)) r1) (L : Locals) :
    r1.value? L w.counter.var = L.get? y ∧ r1.value? L w.carried = L.get? x := by
  constructor
  · have hkeep : w.counter.var ∉ w.loop.merge.keys := fun hm => hne (List.mem_singleton.mp hm)
    have hvar : r1.renames.get? w.counter.var = some (.var y t) := by
      rw [h.keeps _ hkeep, Renaming.bind_renames]
      exact if_pos rfl
    rw [Renaming.value?, hvar]
    rfl
  · exact Renaming.value?_of_image (h.image (w.carried, x) List.mem_cons_self) L

/-- A copy of the body. -/
theorem copy_folds (h : Stmt.blockCopy w.loop.body r out r') (hI : Unbound (Stmt.blockBinds out) I) :
    Folds (w.visit call) [i] (fun L v => r.value? L w.counter.var = some (.ofInt i) ∧
      r.value? L w.carried = some v ∧ I L) (block call fuel out) (fun L v => r'.value? L w.next = some v ∧ I L) := by
  obtain ⟨_, _, _, ⟨y, u, rfl, rfl⟩, ⟨rfl, rfl⟩, rfl⟩ := h
  refine .of_bind fun L v ⟨hi, hv, hL⟩ => ⟨fun u => L.insert y u, ?_, fun z => ⟨?_, hI L hL y List.mem_cons_self z⟩⟩
  · have hvalue : r.subst (.call w.fn [.var w.counter.var (.scalar w.counterTy), .var w.carried w.ty] w.ty) =
        .call w.fn [r.subst (.var w.counter.var (.scalar w.counterTy)), r.subst (.var w.carried w.ty)] w.ty :=
          r.subst_eq nofun
    rw [block_singleton, stmt, hvalue, expr, exprs, exprs, exprs, r.expr_subst_var hi, r.expr_subst_var hv]
    rfl
  · rw [Renaming.value?_of_image (Renaming.image?_bind_self r w.next y u)]
    exact get?_insert_self L y z

/-- The copies after the first. -/
theorem copies_folds (hty : w.loop.Counts w.counterTy) (hne : w.counter.var ≠ w.carried)
    {first : VarName} {offs blk : Block} {offsets : List (Expr × Nat)}
    (h : Copies w.loop first n k r offs offsets blk r') (hnd : (Stmt.blockBinds blk).Nodup)
    (hI : Unbound (Stmt.blockBinds blk) I) (hfirst : ∀ L, I L →
      (Expr.var first (.scalar w.counterTy)).Holds (.ofInt i) L)
      (hoffs : ∀ p ∈ offsets, ∀ L, I L → p.1.Holds (.ofInt d * Int64.ofNat p.2) L)
    (hin : ∀ j ∈ steps d n (i + k * d), w.counterTy.Fits j) :
    Folds (w.visit call) (steps d n (i + k * d)) (fun L v => r.value? L w.next = some v ∧ I L) (block call fuel blk)
      (fun L v => r'.value? L w.next = some v ∧ I L) := by
  induction h with
  | nil k r => exact .of_pure fun L v hL => ⟨L, block_nil call fuel L, hL⟩
  | @cons n k r r1 r2 r' y t ys off offs offset offsets body blk ht _ hbody _ ih =>
    obtain ⟨x, rfl⟩ : ∃ x, ys = [x] := List.length_eq_one_iff.mp ht.length
    obtain ⟨u, hx⟩ := current_eq ht (p := (w.carried, x)) List.mem_cons_self
    have hcarry : carry w.loop.merge r r1 = [.assign (.var x u) (r.subst (.var w.next w.ty))] := by rw [← hx]; rfl
    have hbinds : Stmt.blockBinds (carry w.loop.merge r r1 ++ (w.loop.count first y offset :: body) ++ blk) =
        x :: y :: (Stmt.blockBinds body ++ Stmt.blockBinds blk) := by
      rw [hcarry, Stmt.blockBinds_append, Stmt.blockBinds_append]
      rfl
    rw [hbinds] at hnd hI
    obtain ⟨hxy, hnd⟩ := List.nodup_cons.mp hnd
    rw [steps] at hin ⊢
    obtain ⟨hj, hin⟩ := List.forall_mem_cons.mp hin
    obtain ⟨hoff, hoffs⟩ := List.forall_mem_cons.mp hoffs
    have hnext : i + k * d + d = i + ((k + 1 : Nat) : Int) * d := by push_cast; ring
    -- the value is carried over
    have h1 : Folds (w.visit call) [] (fun L v => r.value? L w.next = some v ∧ I L)
        (block call fuel (carry w.loop.merge r r1)) (fun L v => L.get? x = some v ∧ I L) := by
      rw [hcarry]
      refine .of_pure fun L v hL => ⟨L.insert x v, ?_, get?_insert_self L x v, hI L hL.2 x List.mem_cons_self v⟩
      rw [block_singleton, stmt, r.expr_subst_var hL.1, pure_bind]
    -- the counter is computed
    have h2 : Folds (w.visit call) [] (fun L v => L.get? x = some v ∧ I L)
      (block call fuel [w.loop.count first y offset])
        (fun L v => r1.value? L w.counter.var = some (.ofInt (i + k * d)) ∧ r1.value? L w.carried = some v ∧ I L) := by
      refine .of_pure fun L v hL => ⟨L.insert y (.ofInt (i + k * d)), ?_, ?_, ?_, hI L hL.2 y (by simp) _⟩
      · have hsum : Int64.ofInt i + .ofInt d * Int64.ofNat k = .ofInt (i + k * d) := by
          rw [Int64.ofInt_add, Int64.ofInt_mul, Int64.mul_comm (Int64.ofInt k)]
          rfl
        rw [block_singleton, count_run hty (hfirst L hL.2) (hoff L hL.2) (by rw [hsum]; exact hj.holds hty.int), hsum]
      · rw [(values_of_takes hne ht _).1]
        exact get?_insert_self L y _
      · rw [(values_of_takes hne ht _).2, get?_insert_of_ne L _ fun e => hxy (by simp [e])]
        exact hL.1
    have hbody_I : Unbound (Stmt.blockBinds body) I := hI.mono fun z hz => by simp [hz]
    have hblk_I : Unbound (Stmt.blockBinds blk) I := hI.mono fun z hz => by simp [hz]
    have h3 : Folds (w.visit call) [i + k * d] _ (block call fuel body) _ := copy_folds hbody hbody_I
    have h4 : Folds (w.visit call) _ _ (block call fuel blk) _ :=
      ih (List.nodup_append.mp (List.nodup_cons.mp hnd).2).2.1 hblk_I hoffs (hnext ▸ hin)
    rw [hnext]
    have hall := h1.append (h2.append (h3.append h4))
    rw [← List.singleton_append, List.append_assoc]
    exact hall

end Copies

section Loops

variable {w : Sweep} {call : Caller} {fuel n : Nat} {L : Locals} {a b d : Int} {v : Value}

/-- An iteration of the loop as it is. -/
theorem iteration_folds (hne : w.counter.var ≠ w.carried) (entry : Expr) (i : Int) :
    Folds (w.visit call) [i] (fun L v => L.get? w.carried = some v)
      (fun L => block call fuel w.loop.body (L.insert w.counter.var (.ofInt i)) >>= (·.andThen fun L => do
        return .next (← bindMerge call (.ofList [(w.carried, entry, .var w.next w.ty)]) Prod.snd L)))
      (fun L v => L.get? w.carried = some v) := by
  have hcopy : Stmt.blockCopy w.loop.body .none w.loop.body (Renaming.none.bind w.next (.var w.next w.ty)) :=
    ⟨_, _, [], ⟨w.next, w.ty, by rw [Renaming.subst_none], rfl⟩, ⟨rfl, rfl⟩, rfl⟩
  have hbody : Folds (w.visit call) [i] _ (block call fuel w.loop.body) _ :=
    copy_folds hcopy (I := fun _ => True) fun _ _ _ _ _ => trivial
  refine hbody.iteration (fun L v hL => ⟨?_, ?_, trivial⟩) fun L v hL =>
    ⟨L.insert w.carried v, ?_, get?_insert_self L _ v⟩
  · rw [Renaming.none_value?]
    exact get?_insert_self L _ _
  · rw [Renaming.none_value?, get?_insert_of_ne L _ hne.symm]
    exact hL
  · have hnext : L.get? w.next = some v := by
      rw [← hL.1, Renaming.value?_of_image (Renaming.image?_bind_self Renaming.none w.next w.next w.ty)]
    rw [bindMerge_single, expr_atom (e := .var w.next w.ty) hnext, pure_bind]

variable {β : Type} {K : Flow → Exec β} {K' : Value → Exec β} {p : Parts} {V : List VarName}

/-- The loop as it is. -/
theorem loop_folds (hne : w.counter.var ≠ w.carried) {c : Counter} (hvar : c.var = w.counter.var) {entry : Expr}
    (hd : 0 < d) (hh : header call L c = pure ⟨a, b, d⟩) (he : expr call L entry = pure v)
    (hK : ∀ L' v', L'.get? w.carried = some v' → K (.next L') = K' v') :
    stmt call fuel (.forLoop c w.loop.body (.ofList [(w.carried, entry, .var w.next w.ty)])) L >>= K =
      (visits a b d).foldlM (w.visit call) v >>= K' := by
  have hentry : bindMerge call (.ofList [(w.carried, entry, .var w.next w.ty)]) Prod.fst L =
      pure (L.insert w.carried v) := by
    rw [bindMerge_single, he, pure_bind]
  rw [forLoop_run (Int.ne_of_gt hd) hh hentry, visits_eq_steps hd, hvar]
  have hall : Folds (w.visit call) _ _ (repeatCounted w.counter.var d (block call fuel w.loop.body) _ _ _) _ :=
    .repeatCounted (tripCount a b d) a fun i _ => iteration_folds hne entry i
  rw [List.flatMap_singleton'] at hall
  exact hall _ v (get?_insert_self L _ v) hK

/-- An iteration of the unrolled loop. -/
theorem long_iteration_folds (hp : p.Of n w.loop) (hn : 0 < n) (hty : w.loop.Counts w.counterTy)
    (hne : w.counter.var ≠ w.carried) {x : VarName} (hx : p.names = [x]) (hnd : p.binds.Nodup) {I : Locals → Prop}
    (hI : Unbound p.binds I) (hoffs : ∀ q ∈ p.offsetOf, ∀ L, I L → q.1.Holds (.ofInt d * Int64.ofNat q.2) L) (i : Int)
    (hin : ∀ j ∈ steps d n i, w.counterTy.Fits j) :
    Folds (w.visit call) (steps d n i) (fun L v => L.get? x = some v ∧ I L)
      (fun L => block call fuel (p.body ++ p.copies) (L.insert p.var (.ofInt i)) >>= (·.andThen fun L => do
        return .next (← bindMerge call (w.loop.merge.copy p.names .none p.last) Prod.snd L)))
      (fun L v => L.get? x = some v ∧ I L) := by
  obtain ⟨m, rfl⟩ : ∃ m, n = m + 1 := ⟨n - 1, by omega⟩
  obtain ⟨r0, t, -, ht⟩ := hp.takes
  obtain ⟨r, hbody, hcopies⟩ := hp.copies
  rw [hx] at ht
  rw [Parts.binds, hx] at hnd hI
  obtain ⟨hhead, htail, hdis⟩ := List.nodup_append.mp hnd
  have hxvar : x ≠ p.var := fun e => (List.nodup_cons.mp hhead).1 (by simp [e])
  have hcounter : ∀ y ∈ Stmt.blockBinds p.body ++ Stmt.blockBinds p.copies, p.var ≠ y := fun y hy =>
    hdis p.var (by simp) y hy
  have hI' : Unbound (Stmt.blockBinds p.body ++ Stmt.blockBinds p.copies) fun L =>
      I L ∧ L.get? p.var = some (.ofInt i) := by
    intro L hL y hy u
    exact ⟨hI L hL.1 y (List.mem_append_right _ hy) u, by rw [get?_insert_of_ne L u (hcounter y hy)]; exact hL.2⟩
  have h1 : Folds (w.visit call) [i] _ (block call fuel p.body) _ :=
    copy_folds hbody (hI'.mono fun z hz => List.mem_append_left _ hz)
  have h2 : Folds (w.visit call) (steps d m (i + (1 : Nat) * d)) _ (block call fuel p.copies) _ :=
    copies_folds hty hne hcopies (List.nodup_append.mp htail).2.1 (hI'.mono fun z hz => List.mem_append_right _ hz)
      (fun L hL => hL.2) (fun q hq L hL => hoffs q hq L hL.1) fun j hj =>
        hin j (List.mem_cons_of_mem _ (by simpa using hj))
  have hall := h1.append h2
  have hsteps : [i] ++ steps d m (i + (1 : Nat) * d) = steps d (m + 1) i := by simp [steps]
  rw [hsteps] at hall
  refine hall.iteration (fun L v hL => ⟨?_, ?_, ?_, ?_⟩) fun L v hL =>
    ⟨L.insert x v, ?_, get?_insert_self L x v, hI L hL.2.1 x (by simp) v⟩
  · rw [(values_of_takes hne ht _).1]
    exact get?_insert_self L _ _
  · rw [(values_of_takes hne ht _).2, get?_insert_of_ne L _ hxvar]
    exact hL.1
  · exact hI L hL.2 p.var (by simp) _
  · exact get?_insert_self L _ _
  · rw [hx]
    show bindMerge call (.ofList [(x, _, p.last.subst (.var w.next w.ty))]) Prod.snd L = _
    rw [bindMerge_single, p.last.expr_subst_var hL.1, pure_bind]

/-- The unrolled loop, where its bounds and the offsets are known. -/
theorem unrolled_folds (hp : p.Of n w.loop) (hn : 0 < n) (hty : w.loop.Counts w.counterTy)
    (hne : w.counter.var ≠ w.carried) {x : VarName} (hx : p.names = [x]) (hapart : p.Apart w.loop V (.ofInt d))
    (hknown : Known (p.facts (.ofInt d)) L) (hd : 0 < d) {mid : Int}
    (hh : header call L ⟨p.var, w.counter.start, p.stop, p.bigStep⟩ = pure ⟨a, mid, n * d⟩)
    (hinit : expr call L w.init = pure v)
    (hin : ∀ j ∈ (steps (n * d) (tripCount a mid (n * d)) a).flatMap (steps d n), w.counterTy.Fits j)
    (hK : ∀ L' u, L'.get? x = some u → (∀ z, z ∉ p.binds → L'.get? z = L.get? z) → K (.next L') = K' u) :
    stmt call fuel (p.unrolled w.loop) L >>= K =
      ((steps (n * d) (tripCount a mid (n * d)) a).flatMap (steps d n)).foldlM (w.visit call) v >>= K' := by
  have hI : Unbound p.binds fun L' => ∀ z, z ∉ p.binds → L'.get? z = L.get? z := fun L' hL y hy u z hz =>
    (get?_insert_of_ne L' u fun e : z = y => hz (e ▸ hy)).trans (hL z hz)
  have hoffs : ∀ q ∈ p.offsetOf, ∀ L' : Locals, (∀ z, z ∉ p.binds → L'.get? z = L.get? z) →
      q.1.Holds (.ofInt d * Int64.ofNat q.2) L' := fun q hq L' hL =>
    (hknown _ (List.mem_map_of_mem hq)).congr fun z hz => hL z (hapart.offsets _ (List.mem_map_of_mem hq) z hz)
  have hentry : bindMerge call (w.loop.merge.copy p.names .none p.last) Prod.fst L = pure (L.insert x v) := by
    rw [hx]
    show bindMerge call (.ofList [(x, Renaming.none.subst w.init, _)]) Prod.fst L = _
    rw [bindMerge_single, Renaming.subst_none, hinit, pure_bind]
  have hall : Folds (w.visit call) _ _ (repeatCounted p.var (n * d) (block call fuel (p.body ++ p.copies)) _ _ _) _ :=
    .repeatCounted (tripCount a mid (n * d)) a fun i hi => long_iteration_folds hp hn hty hne hx hapart.nodup hI hoffs i
      fun j hj => hin j (List.mem_flatMap.mpr ⟨i, hi, hj⟩)
  have hrun : stmt call fuel (p.unrolled w.loop) L = _ :=
    forLoop_run (Int.ne_of_gt (Int.mul_pos (by omega) hd)) hh hentry
  rw [hrun]
  exact hall _ v ⟨get?_insert_self L x v, hI L (fun _ _ => rfl) x (by simp [Parts.binds, hx]) v⟩
    fun L' u hL => hK L' u hL.1 hL.2

theorem Starts.congr {L' : Locals} (h : w.Starts call L a b d v) (hl : w.loop.Scoped call V)
    (hL : ∀ z ∈ V, L'.get? z = L.get? z) : w.Starts call L' a b d v := by
  have hread : ∀ {e : Expr} {u : Value}, (∀ z ∈ e.reads, z ∈ V) → expr call L e = pure u → expr call L' e = pure u :=
    fun he hu => (expr_congr _ fun z hz => hL z (he z hz)).trans hu
  have hinit := Stmt.sideWithin_some hl.entry (w.init, .var w.next w.ty) List.mem_cons_self
  exact ⟨hread hl.header.start h.start, hread hl.header.stop h.stop, hread hl.header.step h.step, hread hinit h.init⟩

/-- The loop left over. -/
theorem rest_folds (hp : p.Of n w.loop) (hn : 0 < n) (hne : w.counter.var ≠ w.carried) {x : VarName}
    (hx : p.names = [x]) (hspan : Spans w.counterTy n a b d) (hs : w.Starts call L a b d v) {mid : Int}
    (hmid : w.counterTy.Fits mid) (kmid : p.stop.Holds (.ofInt mid) L) {u : Value} (hu : L.get? x = some u)
    (hK : ∀ L' v', L'.get? w.carried = some v' → K (.next L') = K' v') :
    stmt call fuel (p.rest w.loop) L >>= K = (visits mid b d).foldlM (w.visit call) u >>= K' := by
  obtain ⟨_, _, -, ht⟩ := hp.takes
  obtain ⟨ty, hcur⟩ := current_eq ht (p := (w.carried, x)) (by rw [hx]; exact List.mem_cons_self)
  have hh : header call L { w.counter with start := p.stop } = pure ⟨mid, b, d⟩ :=
    header_pure hmid.wide hspan.stop.wide (hspan.step hn).wide (kmid.eval call) hs.stop hs.step
  refine loop_folds hne (c := { w.counter with start := p.stop }) rfl hspan.pos hh ?_ hK
  rw [hcur]
  exact expr_atom (e := .var x ty) hu call

/-- The two halves of the loop. -/
theorem halves_folds (hp : p.Of n w.loop) (hn : 0 < n) (hl : w.loop.Scoped call V) (hty : w.loop.Counts w.counterTy)
    (hclear : p.Clear w.loop V) (hne : w.counter.var ≠ w.carried) (hspan : Spans w.counterTy n a b d)
    (hs : w.Starts call L a b d v) (hK : ∀ L' v', L'.get? w.carried = some v' → K (.next L') = K' v') :
    block call fuel (p.front w.loop ++ [p.rest w.loop]) L >>= K = (visits a b d).foldlM (w.visit call) v >>= K' := by
  funext st
  obtain ⟨hin, hbig, mid, hsplit, hmid, emid⟩ :=
    stays_of_fits hty.int hn hspan.pos hspan.start hspan.stop hspan.range hspan.long
  have hbig0 : Int64.ofNat n * .ofInt d ≠ 0 := by
    have hlong0 : 0 < (n : Int) * d := Int.mul_pos (by omega) hspan.pos
    rw [hbig]
    intro e
    have : (n : Int) * d = 0 := by rw [← hspan.long.wide.toInt_ofInt, e]; rfl
    omega
  have hhead : w.loop.Header call (· = st) L (.ofInt a) (.ofInt b) (.ofInt d) :=
    ⟨.of_pure hs.start _, .of_pure hs.stop _, .of_pure hs.step _⟩
  obtain ⟨L1, st1, ahead, rfl, hkeep, kbig, kmid, hknown, hapart, hfree⟩ :=
    hp.ahead fuel hn hl hty hclear hhead hin hbig0 rfl
  rw [hbig] at kbig
  rw [emid] at kmid
  obtain ⟨_, _, -, ht⟩ := hp.takes
  obtain ⟨x, hx⟩ : ∃ x, p.names = [x] := List.length_eq_one_iff.mp ht.length
  have hs1 := hs.congr hl hkeep
  have hh : header call L1 ⟨p.var, w.counter.start, p.stop, p.bigStep⟩ = pure ⟨a, mid, n * d⟩ :=
    header_pure hspan.start.wide hmid.wide hspan.long.wide hs1.start (kmid.eval call) (kbig.eval call)
  have hrest : ∀ L' u, L'.get? x = some u → (∀ z, z ∉ p.binds → L'.get? z = L1.get? z) →
      stmt call fuel (p.rest w.loop) L' >>= K = (visits mid b d).foldlM (w.visit call) u >>= K' := by
    intro L' u hu hL'
    have hV : ∀ z ∈ V, L'.get? z = L1.get? z := fun z hz =>
      hL' z fun hm => hapart.fresh z hm (.inl (Loop.Scoped.mem_inside.mpr (.inr hz)))
    exact rest_folds hp hn hne hx hspan (hs1.congr hl hV) hmid (kmid.congr fun z hz => hL' z (hfree z hz)) hu hK
  have hvisits := visits_split hsplit hn hspan.pos
  rw [← hsplit.quotient, ← (tripCount_split_of_pos hsplit hn hspan.pos).1] at hvisits
  have hin : ∀ j ∈ (steps (n * d) (tripCount a mid (n * d)) a).flatMap (steps d n), w.counterTy.Fits j := fun j hj => by
    have := mem_visits (hvisits ▸ List.mem_append_left _ hj)
    exact hspan.start.of_between hspan.stop (by omega)
  have hrun : block call fuel (p.front w.loop ++ [p.rest w.loop]) L st1 =
      (stmt call fuel (p.unrolled w.loop) L1 >>= (·.andThen (stmt call fuel (p.rest w.loop)))) st1 := by
    rw [Parts.front, List.append_assoc, block_append_of_next ahead.run, List.singleton_append,
      block_cons, block_singleton]
  have hall : (stmt call fuel (p.unrolled w.loop) L1 >>= (·.andThen (stmt call fuel (p.rest w.loop)))) >>= K =
      (visits a b d).foldlM (w.visit call) v >>= K' := by
    rw [hvisits, List.foldlM_append, bind_assoc, bind_assoc]
    exact unrolled_folds hp hn hty hne hx hapart hknown hspan.pos hh hs1.init hin hrest
  rw [← hall]
  show EStateM.bind _ K st1 = EStateM.bind _ K st1
  rw [EStateM.bind, EStateM.bind, hrun]

/-- Code that passes the check tells the carried value from the counter. -/
theorem counter_ne_carried {env E : TypeEnv} {xs : List VarName} {out : Block}
    (h : Unrolled n env (.forLoop w.counter w.loop.body w.loop.merge) out) (hk : Checked E env xs out V) :
    w.counter.var ≠ w.carried := by
  obtain ⟨D, D', hok, hD, hV⟩ := hk.passes
  have hnd : ([w.counter.var] ++ w.loop.merge.keys ++ Stmt.blockBinds w.loop.body).Nodup := by
    obtain ⟨_, ⟨_, _, rfl, rfl, rfl⟩, rfl | ⟨-, -, t, p, -, -, rfl⟩⟩ := h
    · exact ((WellFormed.block_ok hok).fresh hD).1
    · exact (halves_names hok hD hV).1
  exact fun e => (List.nodup_cons.mp hnd).1 (by rw [e]; exact List.mem_cons_self)

/-- The body of a function that ends with the carried value. -/
theorem body_folds {g : Func} {args : List Value} {out : Block} (hg : g.body = out ++ [.ret (.var w.carried w.ty)])
    {x : Exec Value} (h : ∀ (K : Flow → Exec Value) (K' : Value → Exec Value),
      (∀ L' u, L'.get? w.carried = some u → K (.next L') = K' u) →
        block call fuel out (.ofList (g.params.zip args)) >>= K = x >>= K') : Eval.body call fuel g args = x := by
  rw [Eval.body, hg, block_append, bind_assoc, h _ pure fun L' u hu => ?_, bind_pure]
  show block call fuel [.ret (.var w.carried w.ty)] L' >>= _ = pure u
  rw [block_singleton, stmt, expr_atom (e := .var w.carried w.ty) hu]
  rfl

end Loops

end Sweep

/-- A function that sweeps, and the one it is unrolled to, fold what is called over the start of the range and every
step from it that is below the stop. -/
theorem sweep_visits {w : Sweep} {factor : UnrollFactor} {s s' : Session} {f g : Func} (hbody : f.body = w.body)
    (hvar : f.env.get? w.counter.var = some (.scalar w.counterTy)) (hty : w.loop.Counts w.counterTy)
    (hscoped : Stmt.blockWellScoped f.body f.inputs = true) (h : (pass factor).apply () f s = .ok (g, ()) s')
    {call : Caller} {args : List Value} {a b d : Int} {v : Value}
    (hs : w.Starts call (.ofList (f.params.zip args)) a b d v)
    (hspan : Spans w.counterTy factor.val a b d) (fuel : Nat) :
    Eval.body call fuel f args = (visits a b d).foldlM (fun u i => call w.fn [.ofInt i, u]) v ∧
      Eval.body call fuel g args = (visits a b d).foldlM (fun u i => call w.fn [.ofInt i, u]) v := by
  obtain ⟨hparams, -, -, hunrolled, hchecked⟩ := apply_unrolled h
  rw [hbody] at hunrolled hscoped hchecked
  obtain ⟨out, _, hloop, ⟨_, _, rfl, rfl, rfl⟩, hg⟩ := hunrolled
  have hk : Checked g.env f.env (Stmt.forLoop w.loop.counter w.loop.body w.loop.merge).binds out f.inputs :=
    (Checked.cons hloop.binds (hg ▸ hchecked)).1
  have hne := w.counter_ne_carried hloop hk
  have hheader := header_pure hspan.start.wide hspan.stop.wide (hspan.step factor.pos).wide hs.start hs.stop hs.step
  have hrolled : ∀ (K : Flow → Exec Value) (K' : Value → Exec Value),
      (∀ L' u, L'.get? w.carried = some u → K (.next L') = K' u) →
      block call fuel [.forLoop w.counter w.loop.body w.loop.merge] (.ofList (f.params.zip args)) >>= K =
        (visits a b d).foldlM (w.visit call) v >>= K' := by
    intro K K' hK
    rw [block_singleton]
    exact w.loop_folds hne rfl hspan.pos hheader hs.init hK
  refine ⟨w.body_folds hbody hrolled, w.body_folds hg fun K K' hK => ?_⟩
  rw [hparams]
  obtain ⟨_, ⟨_, _, rfl, rfl, rfl⟩, rfl | ⟨-, -, t, p, ht, hp, rfl⟩⟩ := hloop
  · exact hrolled K K' hK
  · cases hvar.symm.trans ht
    have hone : w.loop.merge.Commutes call := .inl (Nat.le_refl 1)
    obtain ⟨hl, hclear⟩ := halves_scoped (l := w.loop) hk (Bool.and_eq_true _ _ ▸ hscoped).1 hone ⟨trivial, trivial⟩
    exact w.halves_folds hp factor.pos hl hty hclear hne hspan hs hK

/-- Sweeps from `a` up to `b` in steps of `d`, which are integers of the type. -/
def sweepOver (t : ScalarTy) : Sweep where
  counter := ⟨"i", .var "a" (.scalar t), .var "b" (.scalar t), .var "d" (.scalar t)⟩
  counterTy := t
  carried := "m"
  init := .int64 0
  next := "c"
  ty := .i64
  fn := "visit"

def sweeping (t : ScalarTy) : Func where
  name := "sweep"
  params := ["a", "b", "d"]
  paramTys := [.scalar t, .scalar t, .scalar t]
  result := .i64
  env := .ofList [("a", .scalar t), ("b", .scalar t), ("d", .scalar t), ("i", .scalar t), ("m", .i64), ("c", .i64)]
  body := (sweepOver t).body

theorem sweepOver_starts {t : ScalarTy} (call : Caller) (a b d : Int) :
    (sweepOver t).Starts call (.ofList ((sweeping t).params.zip [.ofInt a, .ofInt b, .ofInt d])) a b d (.int 0) := by
  have hget : ∀ p ∈ (sweeping t).params.zip [.ofInt a, .ofInt b, .ofInt d],
      expr call (.ofList ((sweeping t).params.zip [.ofInt a, .ofInt b, .ofInt d])) (.var p.1 (.scalar t)) = pure p.2 :=
    fun p hp => expr_atom (e := .var p.1 (.scalar t)) (NameMap.get?_insertAll_of_mem (by simp [sweeping]) hp _) call
  exact ⟨hget ("a", .ofInt a) (.head _), hget ("b", .ofInt b) (.tail _ (.head _)),
    hget ("d", .ofInt d) (.tail _ (.tail _ (.head _))), expr_atom (e := .int64 0) rfl call⟩

/-- Three at a time, and one more: the last four counters below the largest 32-bit integer. -/
theorem sweep_visits_last : ∃ g s', (pass ⟨3, by decide⟩).apply () (sweeping .i32)
    {} = .ok (g, ()) s' ∧ ∀ call : Caller,
    Eval.body call 1 g [.ofInt 2147483637, .ofInt 2147483647, .ofInt 3] =
      [2147483637, 2147483640, 2147483643, 2147483646].foldlM (fun u i => call "visit" [.ofInt i, u]) (.int 0) := by
  have hok : succeeds ((pass ⟨3, by decide⟩).apply () (sweeping .i32) {}) = true := by decide +kernel
  obtain ⟨⟨g, _⟩, s', h⟩ := exists_of_succeeds hok
  have hty : (sweepOver .i32).loop.Counts .i32 := ⟨rfl, rfl, ⟨rfl, nofun⟩, ⟨rfl, nofun⟩, ⟨rfl, nofun⟩⟩
  have hspan : Spans .i32 3 2147483637 2147483647 3 := ⟨by decide, by decide, by decide, by decide, by decide⟩
  have hvisits : visits 2147483637 2147483647 3 = [2147483637, 2147483640, 2147483643, 2147483646] := by
    rw [visits_eq_steps (by decide)]
    decide
  refine ⟨g, s', h, fun call => ?_⟩
  rw [← hvisits]
  exact (sweep_visits (w := sweepOver .i32) rfl rfl hty (by decide) h (sweepOver_starts call _ _ _) hspan 1).2

/-- Counts the calls that a sweep makes. -/
def tally : Caller
  | _, [_, u] => do return .int ((← u.asInt) + 1)
  | fn, args => fail (.arityMismatch fn 2 args.length)

/-- How many calls a function makes, if it does not fail. -/
def calls? (f : Func) (args : List Value) : Option Int64 := integer? (Eval.body tally 1 f args .empty)

/-- If the range wraps there is a call too many, and if the long step wraps to zero the new function fails. -/
theorem wrapped_sweeps_differ :
    (calls? (sweeping .i64) [.ofInt (-9223372036854775808), .ofInt 2, .ofInt 2305843009213693952] = some 5 ∧
      ∃ g s', (pass ⟨2, by decide⟩).apply () (sweeping .i64) {} = .ok (g, ()) s' ∧
        calls? g [.ofInt (-9223372036854775808), .ofInt 2, .ofInt 2305843009213693952] = some 6) ∧
    calls? (sweeping .i64) [.ofInt 0, .ofInt 1, .ofInt 4611686018427387904] = some 1 ∧
      ∃ g s', (pass ⟨4, by decide⟩).apply () (sweeping .i64) {} = .ok (g, ()) s' ∧
        calls? g [.ofInt 0, .ofInt 1, .ofInt 4611686018427387904] = none := by
  have htwice : succeedsWith
      (fun r _ => calls? r.1 [.ofInt (-9223372036854775808), .ofInt 2, .ofInt 2305843009213693952] = some 6)
      ((pass ⟨2, by decide⟩).apply () (sweeping .i64) {}) = true := by decide +kernel
  have hfour : succeedsWith (fun r _ => calls? r.1 [.ofInt 0, .ofInt 1, .ofInt 4611686018427387904] = none)
      ((pass ⟨4, by decide⟩).apply () (sweeping .i64) {}) = true := by decide +kernel
  obtain ⟨⟨g, _⟩, s', hg, hcalls⟩ := exists_of_succeedsWith htwice
  obtain ⟨⟨k, _⟩, t', hk, hnone⟩ := exists_of_succeedsWith hfour
  exact ⟨⟨by decide +kernel, g, s', hg, of_decide_eq_true hcalls⟩,
    by decide +kernel, k, t', hk, of_decide_eq_true hnone⟩

end Unrolling

end ArrayIR
