/-
  ArrayIR.Proofs.Simulation — statements of two runs side by side.

  The locals of two runs are related by a link, which is kept as more buffers are
  paired. Two pieces of code simulate each other from one link to another (`Sim`)
  when, from linked locals and agreeing stores, both fail, both return alike values,
  or both go on with locals that are linked anew. There is one rule for each kind of
  statement and one for each kind of loop.

  From these rules a function simulates itself on alike arguments
  (`Session.call_inStep`), whatever it does: that is what a call means to code that
  has been moved or copied.
-/

import ArrayIR.Proofs.Renamed

namespace ArrayIR

theorem forall₂_mem_left {α β : Type} {P : α → β → Prop} {xs : List α} {ys : List β}
    (h : List.Forall₂ P xs ys) {a : α} (ha : a ∈ xs) : ∃ b ∈ ys, P a b := by
  induction h with
  | nil => exact absurd ha List.not_mem_nil
  | cons hab _ ih =>
    rcases List.mem_cons.mp ha with rfl | ha
    · exact ⟨_, List.mem_cons_self, hab⟩
    · obtain ⟨b, hb, hp⟩ := ih ha
      exact ⟨b, List.mem_cons_of_mem _ hb, hp⟩

/-! ## Links -/

/-- A relation of the locals of two runs, kept as the pairing grows. -/
structure Link where
  holds : Pairing → Locals → Locals → Prop
  mono : ∀ {w w' : Pairing} {L L' : Locals}, w ≤ w' → holds w L L' → holds w' L L'

variable {r r' : Renaming} {us : List (VarName × Value)} {st : Store} {m : Merge} {side : Expr × Expr → Expr}
  {s : Session}

namespace Renaming

/-- The name that a name stands for, if it stands for one. -/
def image? (r : Renaming) (x : VarName) : Option VarName :=
  match r.renames.get? x with
  | some e => e.var?
  | .none => some x

theorem value?_of_image {x y : VarName} (h : r.image? x = some y) (L : Locals) : r.value? L x = L.get? y := by
  unfold image? at h
  unfold value?
  cases he : r.renames.get? x with
  | some e =>
    simp only [he] at h ⊢
    cases e with
    | var z t => cases h; rfl
    | _ => cases h
  | none =>
    simp only [he] at h ⊢
    cases h
    rfl

theorem value?_insertAll {x : VarName} (h : ∀ y ∈ us.map (·.1), r.image? x ≠ some y)
    (L : Locals) : r.value? (L.insertAll us) x = r.value? L x := by
  unfold image? at h
  unfold value?
  split
  · rename_i e he
    rw [he] at h
    cases e with
    | var z t => exact NameMap.get?_insertAll_of_not_mem (fun hz => h z hz rfl) L
    | _ => rfl
  · rename_i he
    rw [he] at h
    exact NameMap.get?_insertAll_of_not_mem (fun hz => h x hz rfl) L

theorem value?_congr {x : VarName} (h : r'.renames.get? x = r.renames.get? x) (L : Locals) :
    r'.value? L x = r.value? L x := by
  rw [value?, value?, h]

end Renaming

variable {e : Expr} {st' : Store} {f : Func} {fn : FnName}

namespace Link

/-- Nothing is linked: control never gets here. -/
def never : Link := ⟨fun _ _ _ => False, fun _ h => h⟩

/-- The names in `V` have values alike to those of what they stand for. -/
def names (k : Likeness) (V : VarName → Prop) (r : Renaming) : Link where
  holds w L L' := ∀ x, V x → OptionAlike k w.rel (L.get? x) (r.value? L' x)
  mono hle h x hx := (h x hx).mono hle.rel

/-- All names have alike values. -/
def all (k : Likeness) : Link where
  holds w L L' := ∀ x, OptionAlike k w.rel (L.get? x) (L'.get? x)
  mono hle h x := (h x).mono hle.rel

variable {k : Likeness} {w : Pairing} {L L' : Locals} {V V' : VarName → Prop} {vs : List (VarName × Value)}

theorem names.readsAlike (h : (names k V r).holds w L L')
    (he : ∀ x ∈ e.reads, V x) : ReadsAlike k w r L L' e := fun x hx => h x (he x hx)

theorem names.weaken (h : (names k V r).holds w L L')
    (hV : ∀ x, V' x → V x ∧ r'.renames.get? x = r.renames.get? x) : (names k V' r').holds w L L' := by
  intro x hx
  rw [Renaming.value?_congr (hV x hx).2]
  exact h x (hV x hx).1

/-- Binding names to alike values, on the right under the names they stand for from now on. -/
theorem names.insertAll (h : (names k V r).holds w L L')
    (hvs : List.Forall₂ (fun p q => r'.image? p.1 = some q.1 ∧ Likes k w p.2 q.2) vs us) (hnd : (vs.map (·.1)).Nodup)
    (hnd' : (us.map (·.1)).Nodup)
    (hV : ∀ x, V' x → x ∉ vs.map (·.1) → V x ∧ r'.renames.get? x = r.renames.get? x ∧
      ∀ y ∈ us.map (·.1), r.image? x ≠ some y) :
    (names k V' r').holds w (L.insertAll vs) (L'.insertAll us) := by
  intro x hx
  by_cases hm : x ∈ vs.map (·.1)
  · obtain ⟨⟨x, v⟩, hv, rfl⟩ := List.mem_map.mp hm
    obtain ⟨⟨y, u⟩, hu, himg, hvu⟩ := forall₂_mem_left hvs hv
    rw [NameMap.get?_insertAll_of_mem hnd hv, Renaming.value?_of_image himg, NameMap.get?_insertAll_of_mem hnd' hu]
    exact hvu
  · obtain ⟨hx, hr, hy⟩ := hV x hx hm
    rw [NameMap.get?_insertAll_of_not_mem hm, Renaming.value?_congr hr, Renaming.value?_insertAll hy]
    exact h x hx

theorem all.readsAlike (h : (all k).holds w L L') (e : Expr) : ReadsAlike k w .none L L' e := by
  intro x _
  rw [Renaming.none_value?]
  exact h x

theorem all.insert (h : (all k).holds w L L') (x : VarName) {v u : Value} (hv : Likes k w v u) :
    (all k).holds w (L.insert x v) (L'.insert x u) := by
  intro z
  rw [NameMap.get?_insert, NameMap.get?_insert]
  by_cases hz : z = x
  · rw [if_pos hz, if_pos hz]
    exact hv
  · rw [if_neg hz, if_neg hz]
    exact h z

theorem all.insertAll (hvs : List.Forall₂ (fun p q => p.1 = q.1 ∧ Likes k w p.2 q.2) vs us) (h : (all k).holds w L L') :
    (all k).holds w (L.insertAll vs) (L'.insertAll us) := by
  induction hvs generalizing L L' with
  | nil => exact h
  | @cons p q _ _ hpq _ ih =>
    rw [NameMap.insertAll_cons, NameMap.insertAll_cons, ← hpq.1]
    exact ih (all.insert h p.1 hpq.2)

end Link

/-! ## Simulation -/

/-- Whether the expression can be assigned to: it is a name or an index. -/
def Expr.isTarget : Expr → Bool
  | .var _ _ | .index _ _ _ => true
  | _ => false

namespace Eval

/-- Go on with the locals, unless a value has been returned. -/
def Flow.andThen (fl : Flow) (next : Locals → Exec Flow) : Exec Flow :=
  match fl with
  | .returned v => pure (.returned v)
  | .next L => next L

/-- Both returned alike values, or both go on with linked locals. -/
def Flow.Alike (k : Likeness) (Δ : Link) (w : Pairing) : Flow → Flow → Prop
  | .next L, .next L' => Δ.holds w L L'
  | .returned v, .returned u => Likes k w v u
  | _, _ => False

/-- From locals linked by `Γ`, if `F` holds of the first run's state, both runs fail, both return alike
values, or both go on with locals linked by `Δ`. -/
def Sim (k : Likeness) (Γ : Link) (F : Locals → Store → Prop) (x y : Locals → Exec Flow) (Δ : Link) : Prop :=
  ∀ w L st L' st', Agree k w st st' → Γ.holds w L L' → F L st →
    Outcome w (Ends k (Flow.Alike k Δ)) (x L st) (y L' st')

theorem block_nil (call : Caller) (fuel : Nat) (L : Locals) : block call fuel [] L = pure (.next L) := by
  rw [block]

theorem block_cons (call : Caller) (fuel : Nat) (s : Stmt) (ss : List Stmt) (L : Locals) :
    block call fuel (s :: ss) L = stmt call fuel s L >>= (·.andThen (block call fuel ss)) := by
  rw [block]
  refine bind_congr fun fl => ?_
  cases fl <;> rfl

theorem block_append (call : Caller) (fuel : Nat) (ss ts : List Stmt) (L : Locals) :
    block call fuel (ss ++ ts) L = block call fuel ss L >>= (·.andThen (block call fuel ts)) := by
  induction ss generalizing L with
  | nil => rw [List.nil_append, block_nil, pure_bind]; rfl
  | cons s ss ih =>
    rw [List.cons_append, block_cons, block_cons, bind_assoc]
    refine bind_congr fun fl => ?_
    cases fl with
    | next L => exact ih L
    | returned v => exact (pure_bind _ _).symm

variable {ss : List Stmt} {L : Locals} {c' c v : Expr}

theorem block_append_next {call : Caller} {fuel : Nat} {ts : List Stmt} {L' : Locals}
    (h : block call fuel ss L st = .ok (.next L') st') :
    block call fuel (ss ++ ts) L st = block call fuel ts L' st' := by
  rw [block_append]
  show EStateM.bind _ _ st = _
  rw [EStateM.bind, h]
  rfl

namespace Sim

variable {k : Likeness} {Γ Γ' Δ Δ' Θ : Link} {F F' : Locals → Store → Prop} {x y x' y' : Locals → Exec Flow}

theorem mono (h : Sim k Γ F x y Δ) (hΓ : ∀ {w L L'}, Γ'.holds w L L' → Γ.holds w L L')
    (hF : ∀ {L st}, F' L st → F L st) (hΔ : ∀ {w L L'}, Δ.holds w L L' → Δ'.holds w L L') :
    Sim k Γ' F' x y Δ' := by
  intro w L st L' st' hst hL hf
  refine (h w L st L' st' hst (hΓ hL) (hF hf)).mono le_rfl fun w' a s b s' _ hp => ⟨hp.1, ?_⟩
  cases a <;> cases b
  · exact hΔ hp.2
  · exact hp.2
  · exact hp.2
  · exact hp.2

theorem ofNever : Sim k .never F x y Δ := fun _ _ _ _ _ _ h _ => h.elim

/-- One piece of code after the other. -/
theorem andThen (h : Sim k Γ F x y Δ) (h' : Sim k Δ F' x' y' Θ) :
    Sim k Γ (fun L st => F L st ∧ ∀ L1 st1, x L st = .ok (.next L1) st1 → F' L1 st1)
      (fun L => x L >>= (·.andThen x')) (fun L => y L >>= (·.andThen y')) Θ := by
  intro w L st L' st' hst hL hf
  refine (h w L st L' st' hst hL hf.1).bind_eq fun w1 a s b s' _ hx _ hp => ?_
  obtain ⟨hs, hp⟩ := hp
  cases a <;> cases b
  · exact h' w1 _ s _ s' hs hp (hf.2 _ _ hx)
  · exact hp.elim
  · exact hp.elim
  · exact ⟨w1, le_rfl, hs, hp⟩

theorem nil {call call' : Caller} {fuel : Nat} (hΔ : ∀ {w L L'}, Γ.holds w L L' → Δ.holds w L L') :
    Sim k Γ F (block call fuel []) (block call' fuel []) Δ := by
  intro w L st L' st' hst hL _
  rw [block_nil, block_nil]
  exact ⟨w, le_rfl, hst, hΔ hL⟩

end Sim

/-! ## Statements -/

/-- The two computations are in step wherever the locals are linked. -/
def Across {α β : Type} (k : Likeness) (Γ : Link) (P : Pairing → α → β → Prop) (x : Locals → Exec α)
    (y : Locals → Exec β) : Prop :=
  ∀ ⦃w : Pairing⦄ ⦃L L' : Locals⦄, Γ.holds w L L' → InStep k w P (x L) (y L')

theorem condition_across {k : Likeness} {Γ : Link} {call call' : Caller}
    (h : Across k Γ (Likes k) (expr call · c) (expr call' · c')) :
    Across k Γ (fun _ => Eq) (condition call · c) (condition call' · c') := by
  intro w L L' hL
  refine (h hL).bind fun w1 v u _ hv => ?_
  cases hv.likewise with
  | scalar x =>
    cases x with
    | bool b => exact .pure rfl
    | _ => exact .fail
  | _ => exact .fail

theorem store_inStep {k : Likeness} {w : Pairing} (hk : k.contents) (hs : k.stores) {a a' i i' x x' : Value}
    (ha : Likes k w a a') (hi : Likes k w i i') (hx : Likes k w x x') :
    InStep k w (fun _ _ _ => True) (store a i x) (store a' i' x') := by
  cases ha.likewise with
  | array h => exact View.write_inStep hk h (.inl hs) hi hx
  | _ => exact .fail

theorem stmt_ite (call : Caller) (fuel : Nat) (c : Expr) (yes no : List Stmt) (m : Merge) (L : Locals) :
    stmt call fuel (.ite c yes no m) L = condition call L c >>= fun b =>
      block call fuel (if b then yes else no) L >>=
        (·.andThen fun L => return .next (← bindMerge call m (if b then Prod.fst else Prod.snd) L)) := by
  rw [stmt]
  refine bind_congr fun b => ?_
  cases b <;> exact bind_congr fun fl => by cases fl <;> rfl

variable {t : Expr} {n : Nat} {step : Int} {side' : Expr × Expr → Expr}

theorem stmt_assign_of_not_target (call : Caller) (fuel : Nat) (h : t.isTarget = false) (L : Locals) :
    stmt call fuel (.assign t v) L = expr call L v >>= fun _ => fail (.runtime .assignTarget) := by
  rw [stmt]
  refine bind_congr fun a => ?_
  cases t <;> first | rfl | cases h

/-- The integers of a loop's header: where it starts and stops, and its step. -/
structure Header where
  start : Int
  stop : Int
  step : Int

def Header.trips (h : Header) : Nat := tripCount h.start h.stop h.step

/-- Evaluate the header of a counted loop. -/
def header (call : Caller) (L : Locals) (c : Counter) : Exec Header := do
  let start ← (← expr call L c.start).asInt
  let stop ← (← expr call L c.stop).asInt
  let step ← (← expr call L c.step).asInt
  return ⟨start.toInt, stop.toInt, step.toInt⟩

theorem stmt_forLoop (call : Caller) (fuel : Nat) (c : Counter) (ss : List Stmt) (m : Merge) (L : Locals) :
    stmt call fuel (.forLoop c ss m) L = header call L c >>= fun h =>
      if h.step = 0 then fail (.runtime .zeroStep)
      else bindMerge call m Prod.fst L >>=
        repeatCounted c.var h.step (block call fuel ss) (bindMerge call m Prod.snd) h.trips h.start := by
  rw [stmt, header]
  simp only [bind_assoc, pure_bind]
  refine bind_congr fun a => bind_congr fun a' => bind_congr fun b => bind_congr fun b' => bind_congr fun d =>
    bind_congr fun d' => ?_
  by_cases h : d' = 0
  · subst h
    rfl
  · have h' : d'.toInt ≠ 0 := fun e => h (Int64.toInt_inj.mp (e.trans rfl))
    rw [if_neg h, if_neg h']
    rfl

theorem iterate_succ (test : Locals → Exec Bool) (body : Locals → Exec Flow) (again : Locals → Exec Locals) (n : Nat)
    (L : Locals) :
    iterate test body again (n + 1) L = test L >>= fun b =>
      if b then body L >>= (·.andThen fun L => again L >>= iterate test body again n) else return .next L := by
  rw [iterate]
  refine bind_congr fun b => ?_
  cases b
  · rfl
  · exact bind_congr fun fl => by cases fl <;> rfl

theorem repeatCounted_succ (x : VarName) (step : Int) (body : Locals → Exec Flow) (again : Locals → Exec Locals)
    (n : Nat) (i : Int) (L : Locals) :
    repeatCounted x step body again (n + 1) i L = body (L.insert x (.ofInt i)) >>=
      (·.andThen fun L => again L >>= repeatCounted x step body again n (i + step)) := by
  rw [repeatCounted]
  exact bind_congr fun fl => by cases fl <;> rfl

/-- `F` holds at the head of every iteration that runs. -/
def IterateGuard (F : Locals → Store → Prop) (test : Locals → Exec Bool) (body : Locals → Exec Flow)
    (again : Locals → Exec Locals) : Nat → Locals → Store → Prop
  | 0, _, _ => True
  | n + 1, L, st => ∀ st₁, test L st = .ok true st₁ → F L st₁ ∧
    ∀ L₁ st₂ L₂ st₃, body L st₁ = .ok (.next L₁) st₂ → again L₁ st₂ = .ok L₂ st₃ →
      IterateGuard F test body again n L₂ st₃

/-- `F` holds at the head of every counted iteration that runs. -/
def RepeatGuard (F : Locals → Store → Prop) (x : VarName) (step : Int) (body : Locals → Exec Flow)
    (again : Locals → Exec Locals) : Nat → Int → Locals → Store → Prop
  | 0, _, _, _ => True
  | n + 1, i, L, st => F (L.insert x (.ofInt i)) st ∧
    ∀ L₁ st₁ L₂ st₂, body (L.insert x (.ofInt i)) st = .ok (.next L₁) st₁ → again L₁ st₁ = .ok L₂ st₂ →
      RepeatGuard F x step body again n (i + step) L₂ st₂

theorem IterateGuard.trivial (test : Locals → Exec Bool) (body : Locals → Exec Flow)
    (again : Locals → Exec Locals) (n : Nat) (L : Locals) (st : Store) :
    IterateGuard (fun _ _ => True) test body again n L st := by
  induction n generalizing L st with
  | zero => exact True.intro
  | succ n ih => exact fun _ _ => ⟨True.intro, fun _ _ L2 st3 _ _ => ih L2 st3⟩

theorem IterateGuard.mono {F F' : Locals → Store → Prop} (hF : ∀ L st, F L st → F' L st) {test : Locals → Exec Bool}
    {body : Locals → Exec Flow} {again : Locals → Exec Locals}
    (h : IterateGuard F test body again n L st) : IterateGuard F' test body again n L st := by
  induction n generalizing L st with
  | zero => exact True.intro
  | succ n ih => exact fun st1 ht =>
    ⟨hF _ _ (h st1 ht).1, fun L1 st2 L2 st3 hb ha => ih ((h st1 ht).2 L1 st2 L2 st3 hb ha)⟩

theorem RepeatGuard.mono {F F' : Locals → Store → Prop} (hF : ∀ L st, F L st → F' L st) {x : VarName}
    {body : Locals → Exec Flow} {again : Locals → Exec Locals} {i : Int}
    (h : RepeatGuard F x step body again n i L st) : RepeatGuard F' x step body again n i L st := by
  induction n generalizing i L st with
  | zero => exact True.intro
  | succ n ih => exact ⟨hF _ _ h.1, fun L1 st1 L2 st2 hb ha => ih (h.2 L1 st1 L2 st2 hb ha)⟩

theorem RepeatGuard.of_forall {F : Locals → Store → Prop} (h : ∀ L st, F L st) (x : VarName) (step : Int)
    (body : Locals → Exec Flow) (again : Locals → Exec Locals) (n : Nat) (i : Int) (L : Locals) (st : Store) :
    RepeatGuard F x step body again n i L st := by
  induction n generalizing i L st with
  | zero => exact True.intro
  | succ n ih => exact ⟨h _ _, fun _ _ L2 st2 _ _ => ih (i + step) L2 st2⟩

theorem RepeatGuard.trivial (x : VarName) (step : Int) (body : Locals → Exec Flow) (again : Locals → Exec Locals)
    (n : Nat) (i : Int) (L : Locals) (st : Store) : RepeatGuard (fun _ _ => True) x step body again n i L st :=
  of_forall (fun _ _ => True.intro) x step body again n i L st

namespace Sim

variable {k : Likeness} {Γ Δ Δ1 Δ2 Θ : Link} {F F1 F2 : Locals → Store → Prop} {call call' : Caller} {fuel : Nat}
  {v' : Expr} {ss' : List Stmt} {m' : Merge}

theorem assignVar {x y : VarName} {t t' : Ty} (hv : Across k Γ (Likes k) (expr call · v) (expr call' · v'))
    (hΔ : ∀ {w L L' a b}, Γ.holds w L L' → Likes k w a b → Δ.holds w (L.insert x a) (L'.insert y b)) :
    Sim k Γ F (stmt call fuel (.assign (.var x t) v)) (stmt call' fuel (.assign (.var y t') v')) Δ := by
  intro w L st L' st' hst hL _
  rw [stmt, stmt]
  refine (hv hL st st' hst).bind fun w1 a s b s' hle hp => ?_
  exact ⟨w1, le_rfl, hp.1, hΔ (Γ.mono hle hL) hp.2⟩

theorem assignIndex (hk : k.contents) (hs : k.stores) {a a' i i' : Expr} {t t' : Ty}
    (hv : Across k Γ (Likes k) (expr call · v) (expr call' · v'))
    (ha : Across k Γ (Likes k) (expr call · a) (expr call' · a'))
    (hi : Across k Γ (Likes k) (expr call · i) (expr call' · i')) :
    Sim k Γ F (stmt call fuel (.assign (.index a i t) v)) (stmt call' fuel (.assign (.index a' i' t') v')) Γ := by
  intro w L st L' st' hst hL _
  rw [stmt, stmt]
  have run : InStep k w (fun w => Flow.Alike k Γ w) (do
      let v ← expr call L v
      let a ← expr call L a
      let i ← expr call L i
      store a i v
      return Flow.next L) (do
      let v ← expr call' L' v'
      let a ← expr call' L' a'
      let i ← expr call' L' i'
      store a i v
      return Flow.next L') := by
    refine (hv hL).bind fun w1 x x' h1 hx => ?_
    have hL1 := Γ.mono h1 hL
    refine (ha hL1).bind fun w2 b b' h2 hb => ?_
    have hL2 := Γ.mono h2 hL1
    refine (hi hL2).bind fun w3 j j' h3 hj => ?_
    refine (store_inStep hk hs (hb.mono h3) hj (hx.mono (h2.trans h3))).bind fun w4 _ _ h4 _ => ?_
    exact .pure (Γ.mono h4 (Γ.mono h3 hL2))
  exact run st st' hst

/-- An assignment to anything but a name or an index fails. -/
theorem assignFails {t' : Expr} (hv : Across k Γ (Likes k) (expr call · v) (expr call' · v')) (ht : t.isTarget = false)
    (ht' : t'.isTarget = false) : Sim k Γ F (stmt call fuel (.assign t v)) (stmt call' fuel (.assign t' v')) Δ := by
  intro w L st L' st' hst hL _
  rw [stmt_assign_of_not_target _ _ ht, stmt_assign_of_not_target _ _ ht']
  exact (hv hL st st' hst).bind fun _ _ _ _ _ _ _ => trivial

theorem cons {s s' : Stmt} (h : Sim k Γ F1 (stmt call fuel s) (stmt call' fuel s') Δ)
    (h' : Sim k Δ F2 (block call fuel ss) (block call' fuel ss') Θ) :
    Sim k Γ (fun L st => F1 L st ∧ ∀ L1 st1, stmt call fuel s L st = .ok (.next L1) st1 → F2 L1 st1)
      (block call fuel (s :: ss)) (block call' fuel (s' :: ss')) Θ := by
  intro w L st L' st' hst hL hf
  rw [block_cons, block_cons]
  exact h.andThen h' w L st L' st' hst hL hf

theorem ret (hv : Across k Γ (Likes k) (expr call · v) (expr call' · v')) :
    Sim k Γ F (stmt call fuel (.ret v)) (stmt call' fuel (.ret v')) Δ := by
  intro w L st L' st' hst hL _
  rw [stmt, stmt]
  refine (hv hL st st' hst).bind fun w1 a s b s' hle hp => ?_
  exact ⟨w1, le_rfl, hp.1, hp.2⟩

/-- What follows a branch: the merge is bound, unless the branch has returned. -/
theorem branch (h : Sim k Γ F (block call fuel ss) (block call' fuel ss') Δ)
    (hm : Across k Δ Θ.holds (bindMerge call m side) (bindMerge call' m' side')) :
    Sim k Γ F
      (fun L => block call fuel ss L >>= (·.andThen fun L => return .next (← bindMerge call m side L)))
      (fun L => block call' fuel ss' L >>= (·.andThen fun L => return .next (← bindMerge call' m' side' L))) Θ := by
  have hm' : Sim k Δ (fun _ _ => True) (fun L => return .next (← bindMerge call m side L))
      (fun L => return .next (← bindMerge call' m' side' L)) Θ := by
    intro w L st L' st' hst hL _
    exact (hm hL st st' hst).bind fun w1 a s b s' _ hp => ⟨w1, le_rfl, hp.1, hp.2⟩
  exact (h.andThen hm').mono id (fun hf => ⟨hf, fun _ _ _ => trivial⟩) id

theorem ite {yes no yes' no' : List Stmt} (hc : Across k Γ (Likes k) (expr call · c) (expr call' · c'))
    (hyes : Sim k Γ F1 (block call fuel yes) (block call' fuel yes') Δ1)
    (hno : Sim k Γ F2 (block call fuel no) (block call' fuel no') Δ2)
    (hm1 : Across k Δ1 Θ.holds (bindMerge call m Prod.fst) (bindMerge call' m' Prod.fst))
    (hm2 : Across k Δ2 Θ.holds (bindMerge call m Prod.snd) (bindMerge call' m' Prod.snd)) :
    Sim k Γ (fun L st => ∀ b st1, condition call L c st = .ok b st1 → if b then F1 L st1 else F2 L st1)
      (stmt call fuel (.ite c yes no m)) (stmt call' fuel (.ite c' yes' no' m')) Θ := by
  intro w L st L' st' hst hL hf
  rw [stmt_ite, stmt_ite]
  refine (condition_across hc hL st st' hst).bind_eq fun w1 b s b' s' hle hx _ hp => ?_
  obtain ⟨hs, rfl⟩ := hp
  have hf := hf b s hx
  have hL1 := Γ.mono hle hL
  cases b with
  | true => exact branch hyes hm1 w1 L s L' s' hs hL1 hf
  | false => exact branch hno hm2 w1 L s L' s' hs hL1 hf

/-! ## Loops -/

variable {test test' : Locals → Exec Bool} {body body' : Locals → Exec Flow} {again again' : Locals → Exec Locals}

/-- Both loops run in step, as long as `F` holds of the first run at the head of every iteration. -/
theorem iterate (ht : Across k Γ (fun _ => Eq) test test') (hb : Sim k Γ F body body' Δ)
    (ha : Across k Δ Γ.holds again again') (n : Nat) :
    Sim k Γ (IterateGuard F test body again n) (iterate test body again n) (iterate test' body' again' n) Γ := by
  induction n with
  | zero =>
    intro w L st L' st' hst hL _
    rw [Eval.iterate, Eval.iterate]
    refine (ht hL st st' hst).bind fun w1 b s b' s' hle hp => ?_
    obtain ⟨hs, rfl⟩ := hp
    cases b with
    | true => trivial
    | false => exact ⟨w1, le_rfl, hs, Γ.mono hle hL⟩
  | succ n ih =>
    intro w L st L' st' hst hL hf
    rw [iterate_succ, iterate_succ]
    refine (ht hL st st' hst).bind_eq fun w1 b s b' s' hle hx _ hp => ?_
    obtain ⟨hs, rfl⟩ := hp
    cases b with
    | false => exact ⟨w1, le_rfl, hs, Γ.mono hle hL⟩
    | true =>
      obtain ⟨hf, hnext⟩ := hf s hx
      refine (hb w1 L s L' s' hs (Γ.mono hle hL) hf).bind_eq fun w2 a t b t' _ hy _ hp => ?_
      obtain ⟨ht, hp⟩ := hp
      cases a <;> cases b
      · refine (ha hp t t' ht).bind_eq fun w3 L1 u L1' u' _ hz _ hq => ?_
        exact ih w3 L1 u L1' u' hq.1 hq.2 (hnext _ _ _ _ hy hz)
      · exact hp.elim
      · exact hp.elim
      · exact ⟨w2, le_rfl, ht, hp⟩

theorem repeatCounted {x y : VarName}
    (hb : ∀ i, Sim k Γ (fun L st => F (L.insert x (.ofInt i)) st) (fun L => body (L.insert x (.ofInt i)))
      (fun L => body' (L.insert y (.ofInt i))) Δ) (ha : Across k Δ Γ.holds again again') (n : Nat) (i : Int) :
    Sim k Γ (RepeatGuard F x step body again n i) (repeatCounted x step body again n i)
      (repeatCounted y step body' again' n i) Γ := by
  induction n generalizing i with
  | zero =>
    intro w L st L' st' hst hL _
    exact ⟨w, le_rfl, hst, hL⟩
  | succ n ih =>
    intro w L st L' st' hst hL hf
    rw [repeatCounted_succ, repeatCounted_succ]
    refine (hb i w L st L' st' hst hL hf.1).bind_eq fun w1 a s b s' _ hx _ hp => ?_
    obtain ⟨hs, hp⟩ := hp
    cases a <;> cases b
    · refine (ha hp s s' hs).bind_eq fun w2 L1 t L1' t' _ hy _ hq => ?_
      exact ih (i + step) w2 L1 t L1' t' hq.1 hq.2 (hf.2 _ _ _ _ hx hy)
    · exact hp.elim
    · exact hp.elim
    · exact ⟨w1, le_rfl, hs, hp⟩

theorem whileLoop (he : Across k Γ Θ.holds (bindMerge call m Prod.fst) (bindMerge call' m' Prod.fst))
    (hc : Across k Θ (Likes k) (expr call · c) (expr call' · c'))
    (hb : Sim k Θ F (block call fuel ss) (block call' fuel ss') Δ)
    (ha : Across k Δ Θ.holds (bindMerge call m Prod.snd) (bindMerge call' m' Prod.snd)) :
    Sim k Γ
      (fun L st => ∀ L1 st1, bindMerge call m Prod.fst L st = .ok L1 st1 →
        IterateGuard F (condition call · c) (block call fuel ss) (bindMerge call m Prod.snd) fuel L1 st1)
      (stmt call fuel (.whileLoop c ss m)) (stmt call' fuel (.whileLoop c' ss' m')) Θ := by
  intro w L st L' st' hst hL hf
  rw [stmt, stmt]
  refine (he hL st st' hst).bind_eq fun w1 L1 s L1' s' _ hx _ hp => ?_
  exact iterate (condition_across hc) hb ha fuel w1 L1 s L1' s' hp.1 hp.2 (hf _ _ hx)

/-- The integers of a loop's header. -/
theorem header {c c' : Counter} (h1 : Across k Γ (Likes k) (expr call · c.start) (expr call' · c'.start))
    (h2 : Across k Γ (Likes k) (expr call · c.stop) (expr call' · c'.stop))
    (h3 : Across k Γ (Likes k) (expr call · c.step) (expr call' · c'.step)) :
    Across k Γ (fun _ => Eq) (Eval.header call · c) (Eval.header call' · c') := by
  intro w L L' hL
  refine (h1 hL).bind fun w1 v u hle1 hv => ?_
  have hL := Γ.mono hle1 hL
  refine (InStep.lift (P := fun _ => Eq) hv.asInt fun _ _ => id).bind fun w2 a a' hle2 e => ?_
  subst e
  have hL := Γ.mono hle2 hL
  refine (h2 hL).bind fun w3 v u hle3 hv => ?_
  have hL := Γ.mono hle3 hL
  refine (InStep.lift (P := fun _ => Eq) hv.asInt fun _ _ => id).bind fun w4 b b' hle4 e => ?_
  subst e
  have hL := Γ.mono hle4 hL
  refine (h3 hL).bind fun w5 v u hle5 hv => ?_
  refine (InStep.lift (P := fun _ => Eq) hv.asInt fun _ _ => id).bind fun w6 d d' hle6 e => ?_
  subst e
  exact .pure rfl

theorem forLoop {c c' : Counter} (hh : Across k Γ (fun _ => Eq) (Eval.header call · c) (Eval.header call' · c'))
    (he : Across k Γ Θ.holds (bindMerge call m Prod.fst) (bindMerge call' m' Prod.fst))
    (hb : ∀ i, Sim k Θ (fun L st => F (L.insert c.var (.ofInt i)) st)
      (fun L => block call fuel ss (L.insert c.var (.ofInt i)))
      (fun L => block call' fuel ss' (L.insert c'.var (.ofInt i))) Δ)
      (ha : Across k Δ Θ.holds (bindMerge call m Prod.snd) (bindMerge call' m' Prod.snd)) :
    Sim k Γ
      (fun L st => ∀ h st1, Eval.header call L c st = .ok h st1 →
        ∀ L1 st2, bindMerge call m Prod.fst L st1 = .ok L1 st2 →
          RepeatGuard F c.var h.step (block call fuel ss) (bindMerge call m Prod.snd) h.trips h.start L1 st2)
      (stmt call fuel (.forLoop c ss m)) (stmt call' fuel (.forLoop c' ss' m')) Θ := by
  intro w L st L' st' hst hL hf
  rw [stmt_forLoop, stmt_forLoop]
  refine (hh hL st st' hst).bind_eq fun w1 h s h' s' hle hx _ hp => ?_
  obtain ⟨hs, rfl⟩ := hp
  by_cases h0 : h.step = 0
  · rw [if_pos h0, if_pos h0]
    trivial
  · rw [if_neg h0, if_neg h0]
    refine (he (Γ.mono hle hL) s s' hs).bind_eq fun w2 L1 t L1' t' _ hy _ hq => ?_
    exact repeatCounted hb ha h.trips h.start w2 L1 t L1' t' hq.1 hq.2 (hf _ _ hx _ _ hy)

end Sim

/-! ## Merges -/

/-- The values of a merge, entry by entry in step, under names that correspond. -/
theorem mergeValues_across {k : Likeness} {Γ : Link} {call call' : Caller} {R : VarName → VarName → Prop}
    {es es' : List (VarName × Expr × Expr)}
    (h : List.Forall₂ (fun p q => R p.1 q.1 ∧ Across k Γ (Likes k) (expr call · (side p.2)) (expr call' · (side' q.2)))
      es es') :
    Across k Γ (fun w vs us => List.Forall₂ (fun p q => R p.1 q.1 ∧ Likes k w p.2 q.2) vs us ∧
        vs.map (·.1) = es.map (·.1) ∧ us.map (·.1) = es'.map (·.1))
      (mergeValues call · side es) (mergeValues call' · side' es') := by
  induction h with
  | nil => exact fun _ _ _ _ => .pure ⟨.nil, rfl, rfl⟩
  | cons hpq _ ih =>
    intro w L L' hL
    refine (hpq.2 hL).bind fun w1 v u h1 hv => ?_
    refine (ih (Γ.mono h1 hL)).bind fun w2 vs us h2 hvs => ?_
    obtain ⟨hvs, hn, hn'⟩ := hvs
    exact .pure ⟨.cons ⟨hpq.1, hv.mono h2⟩ hvs, congrArg _ hn, congrArg _ hn'⟩

/-! ## The same code -/

end Eval

mutual

/-- What the terms of a comparison ask of a statement. -/
def Likeness.AdmitsStmt (k : Likeness) : Stmt → Prop
  | .assign target value => k.Admits value ∧
    match target with
    | .var _ _ => True
    | .index a i _ => k.contents ∧ k.stores ∧ k.Admits a ∧ k.Admits i
    | _ => True
  | .ret value => k.Admits value
  | .ite c yes no m => k.Admits c ∧ (∀ e ∈ m.exprs, k.Admits e) ∧ k.AdmitsBlock yes ∧ k.AdmitsBlock no
  | .whileLoop c body m => k.Admits c ∧ (∀ e ∈ m.exprs, k.Admits e) ∧ k.AdmitsBlock body
  | .forLoop c body m => k.Admits c.start ∧ k.Admits c.stop ∧ k.Admits c.step ∧ (∀ e ∈ m.exprs, k.Admits e) ∧
    k.AdmitsBlock body

def Likeness.AdmitsBlock (k : Likeness) : List Stmt → Prop
  | [] => True
  | s :: ss => k.AdmitsStmt s ∧ k.AdmitsBlock ss

end

mutual

theorem Likeness.strict_admitsStmt : ∀ s : Stmt, Likeness.strict.AdmitsStmt s
  | .assign target value => by
    refine ⟨strict_admits value, ?_⟩
    cases target <;> first | trivial | exact ⟨trivial, trivial, strict_admits _, strict_admits _⟩
  | .ret value => strict_admits value
  | .ite c yes no m => ⟨strict_admits c, fun e _ => strict_admits e, strict_admitsBlock yes, strict_admitsBlock no⟩
  | .whileLoop c body m => ⟨strict_admits c, fun e _ => strict_admits e, strict_admitsBlock body⟩
  | .forLoop c body m => ⟨strict_admits c.start, strict_admits c.stop, strict_admits c.step,
      fun e _ => strict_admits e, strict_admitsBlock body⟩

theorem Likeness.strict_admitsBlock : ∀ ss : List Stmt, Likeness.strict.AdmitsBlock ss
  | [] => trivial
  | s :: ss => ⟨strict_admitsStmt s, strict_admitsBlock ss⟩

end

/-- Every function that may run does only what the terms of the comparison admit. -/
structure Session.Admits (s : Session) (k : Likeness) : Prop where
  contents : k.contents
  body : ∀ {fn : FnName} {f : Func}, k.fns fn → s.find? fn = some f → k.AdmitsBlock f.body

theorem Session.strict_admits (s : Session) : s.Admits .strict :=
  ⟨trivial, fun _ _ => Likeness.strict_admitsBlock _⟩

namespace Eval

variable {k : Likeness} {call call' : Caller} {fuel : Nat}

theorem Merge.mem_exprs {x : VarName} {l r : Expr} (h : (x, l, r) ∈ m.toList) : l ∈ m.exprs ∧ r ∈ m.exprs := by
  have hv : (l, r) ∈ m.values := List.mem_map.mpr ⟨_, h, rfl⟩
  exact ⟨List.mem_flatMap.mpr ⟨_, hv, by simp⟩, List.mem_flatMap.mpr ⟨_, hv, by simp⟩⟩

section

variable (hcall : CallersAlike k call call')
include hcall

theorem expr_across (he : k.Admits e) : Across k (.all k) (Likes k) (expr call · e) (expr call' · e) := by
  intro w L L' hL
  have := expr_inStep (fun _ => hcall) e he Renaming.none_atomic (Link.all.readsAlike hL e)
  rwa [Renaming.subst_none] at this

theorem bindMerge_across (hm : ∀ p ∈ m.toList, k.Admits (side p.2)) :
    Across k (.all k) (Link.all k).holds (bindMerge call m side) (bindMerge call' m side) := by
  have hes : List.Forall₂ (fun p q : VarName × Expr × Expr => p.1 = q.1 ∧
      Across k (.all k) (Likes k) (expr call · (side p.2)) (expr call' · (side q.2))) m.toList m.toList :=
    List.forall₂_same.mpr fun p hp => ⟨rfl, expr_across hcall (hm p hp)⟩
  intro w L L' hL
  refine (mergeValues_across (R := Eq) hes hL).bind fun w1 vs us hle hvs => ?_
  exact .pure (Link.all.insertAll hvs.1 ((Link.all k).mono hle hL))

end

mutual

/-- A statement simulates itself. -/
theorem stmt_sim (hcall : CallersAlike k call call') : ∀ {s : Stmt}, k.AdmitsStmt s →
    Sim k (.all k) (fun _ _ => True) (stmt call fuel s) (stmt call' fuel s) (.all k)
  | .assign target value, h => by
    have hv := expr_across hcall h.1
    cases target with
    | var x t => exact .assignVar hv fun hL hab => Link.all.insert hL x hab
    | index a i t =>
      obtain ⟨hk, hs, ha, hi⟩ := h.2
      exact .assignIndex hk hs hv (expr_across hcall ha) (expr_across hcall hi)
    | _ => exact .assignFails hv rfl rfl
  | .ret value, h => .ret (expr_across hcall h)
  | .ite c yes no m, ⟨hc, hm, hy, hn⟩ => by
    refine (Sim.ite (expr_across hcall hc) (block_sim hcall hy) (block_sim hcall hn)
      (bindMerge_across hcall fun p hp => hm _ (Merge.mem_exprs hp).1)
      (bindMerge_across hcall fun p hp => hm _ (Merge.mem_exprs hp).2)).mono id (fun _ b _ _ => ?_) id
    cases b <;> trivial
  | .whileLoop c body m, ⟨hc, hm, hb⟩ => by
    refine (Sim.whileLoop (bindMerge_across hcall fun p hp => hm _ (Merge.mem_exprs hp).1) (expr_across hcall hc)
      (block_sim hcall hb) (bindMerge_across hcall fun p hp => hm _ (Merge.mem_exprs hp).2)).mono id
      (fun _ _ _ _ => IterateGuard.trivial _ _ _ _ _ _) id
  | .forLoop c body m, ⟨h1, h2, h3, hm, hb⟩ => by
    refine (Sim.forLoop (Sim.header (expr_across hcall h1) (expr_across hcall h2) (expr_across hcall h3))
      (bindMerge_across hcall fun p hp => hm _ (Merge.mem_exprs hp).1) (fun i => ?_)
      (bindMerge_across hcall fun p hp => hm _ (Merge.mem_exprs hp).2)).mono id
      (fun _ _ _ _ _ _ _ => RepeatGuard.trivial _ _ _ _ _ _ _ _) id
    intro w L st L' st' hst hL _
    exact block_sim hcall hb w _ st _ st' hst (Link.all.insert hL c.var rfl) trivial

theorem block_sim (hcall : CallersAlike k call call') : ∀ {ss : List Stmt}, k.AdmitsBlock ss →
    Sim k (.all k) (fun _ _ => True) (block call fuel ss) (block call' fuel ss) (.all k)
  | [], _ => .nil id
  | _ :: _, h => (Sim.cons (stmt_sim hcall h.1) (block_sim hcall h.2)).mono id
    (fun _ => ⟨trivial, fun _ _ _ => trivial⟩) id

end

variable {args' args : List Value} {w : Pairing}

/-- Bodies that simulate each other give alike results. -/
theorem body_outcome {Γ Δ : Link} {F : Locals → Store → Prop} {g : Func}
    (h : Sim k Γ F (block call fuel f.body) (block call' fuel g.body) Δ) (hst : Agree k w st st')
    (hΓ : Γ.holds w (.ofList (f.params.zip args)) (.ofList (g.params.zip args')))
    (hF : F (.ofList (f.params.zip args)) st) :
    Outcome w (Ends k (Likes k)) (body call fuel f args st) (body call' fuel g args' st') := by
  refine (h w _ st _ st' hst hΓ hF).bind fun w1 a s b s' _ hp => ?_
  obtain ⟨hs, hp⟩ := hp
  cases a <;> cases b
  · trivial
  · exact hp.elim
  · exact hp.elim
  · exact ⟨w1, le_rfl, hs, hp⟩

theorem params_alike (xs : List VarName) (h : List.Forall₂ (Likes k w) args args') :
    (Link.all k).holds w (.ofList (xs.zip args)) (.ofList (xs.zip args')) := by
  refine Link.all.insertAll ?_ fun x => trivial
  induction h generalizing xs with
  | nil =>
    rw [List.zip_nil_right]
    exact .nil
  | cons hv _ ih =>
    cases xs with
    | nil => exact .nil
    | cons x xs => exact .cons ⟨rfl, hv⟩ (ih xs)

end Eval

theorem Session.call_succ (hf : s.find? fn = some f) (fuel : Nat) (args : List Value) :
    s.call (fuel + 1) fn args =
      if args.length ≠ f.params.length then fail (.arityMismatch fn f.params.length args.length)
      else Eval.body (s.call fuel) fuel f args := by
  rw [Session.call, lookup, hf]
  exact pure_bind (m := Exec) f _

theorem Session.call_succ_none (hf : s.find? fn = none) (fuel : Nat)
    (args : List Value) : s.call (fuel + 1) fn args = fail (.unknownFunction fn) := by
  rw [Session.call, lookup, hf]
  rfl

/-- Calls of one function on alike arguments are in step. -/
theorem Session.call_inStep {k : Likeness} (h : s.Admits k) (fuel : Nat) :
    CallersAlike k (s.call fuel) (s.call fuel) := by
  induction fuel with
  | zero => exact ⟨h.contents, fun _ _ => .throw⟩
  | succ fuel ih =>
    refine ⟨h.contents, fun {w fn args args'} hfn hargs => ?_⟩
    cases hf : s.find? fn with
    | none =>
      rw [call_succ_none hf, call_succ_none hf]
      exact .fail
    | some f =>
      rw [call_succ hf, call_succ hf, hargs.length_eq]
      refine .ite Iff.rfl (fun _ => .fail) fun _ st st' hst => ?_
      exact Eval.body_outcome (Eval.block_sim ih (h.body hfn hf)) hst (Eval.params_alike f.params hargs) trivial

end ArrayIR
