/-
  ArrayIR.Proofs.Building.Laying — what the operations of the builder are put together from.

  The operations of the builder are put together from a few steps: finding a function,
  naming a value and storing into an array. Suppose that we know what these steps do
  when they are given expressions that may be used, and that an expression of a kind
  that the builder makes up may be used if its operands may (`Laying`). Then we know
  the same of every operation (`Laying.prim_lays`, `Laying.call_lays` and the others):
  given expressions that may be used it does no more than such steps do, and gives
  expressions that may be used again.

  What may be used can depend on how far the building has come, that is on the world.
  A type may name functions only if they are known, so the type of a node that is made
  up must not name others than those of its operands do (`Expr.Inherits`).
-/

import ArrayIR.Builder.Adverb

namespace ArrayIR

mutual

/-- The functions that a type names, anywhere in it. -/
def Ty.mentions : Ty → List FnName
  | .fn f => [f]
  | .closure f ts => f :: mentionsAll ts
  | .tuple ts => mentionsAll ts
  | _ => []

def Ty.mentionsAll : List Ty → List FnName
  | [] => []
  | t :: ts => t.mentions ++ mentionsAll ts

end

theorem Ty.mem_mentionsAll {ts : List Ty} {f : FnName} : f ∈ mentionsAll ts ↔ ∃ t ∈ ts, f ∈ t.mentions := by
  induction ts with
  | nil => simp [mentionsAll]
  | cons t ts ih => simp [mentionsAll, ih]

/-- Whether the node is of a kind that the builder makes on its own account: no call, no callable and no
adverb. -/
def Expr.isMade : Expr → Bool
  | var .. | const .. | prim .. | index .. | proj .. | attr .. | cast .. | alloc .. | view .. | tuple .. | slice ..
  | capture .. => true
  | call .. | fnRef .. | closure .. | map .. | reduce .. | scan .. | allPairs .. | tiledMap .. | tiledReduce .. => false

/-- The type of the node names no functions that those of its operands do not name. -/
def Expr.Inherits (e : Expr) : Prop := ∀ f ∈ e.ty.mentions, ∃ c ∈ e.children, f ∈ c.ty.mentions

theorem Expr.inherits_of_plain {e : Expr} (h : e.ty.mentions = []) : e.Inherits := by
  intro f hf
  rw [h] at hf
  cases hf

namespace Ty

variable {t u r : Ty} {ts : List Ty}

theorem mentions_item {i : Nat} (hts : t.items? = some ts) (hu : ts[i]? = some u) {f : FnName}
    (hf : f ∈ u.mentions) : f ∈ t.mentions := by
  cases t with
  | tuple items =>
    cases hts
    exact mem_mentionsAll.mpr ⟨u, List.mem_of_getElem? hu, hf⟩
  | _ => cases hts

theorem mentions_extents (rank : Nat) : (extents rank).mentions = [] := by
  refine List.eq_nil_iff_forall_not_mem.mpr fun f hf => ?_
  obtain ⟨t, ht, hf⟩ := mem_mentionsAll.mp hf
  rw [List.eq_of_mem_replicate ht] at hf
  cases hf

theorem mentions_ofRank (elt : ScalarTy) (rank : Nat) : (ofRank elt rank).mentions = [] := by
  unfold ofRank
  split <;> rfl

theorem mentions_indexTy {idx : Ty} (h : t.indexTy idx = some r) : r.mentions = [] := by
  unfold indexTy at h
  split at h
  · rename_i elt rank
    have kept : ∀ o : Option Nat, (do let n ← o; if rank < n then none else pure (ofRank elt (rank - n))) =
        some r → r.mentions = [] := by
      intro o ho
      obtain ⟨n, -, hn⟩ := Option.bind_eq_some_iff.mp ho
      split at hn
      · cases hn
      · cases hn
        exact mentions_ofRank _ _
    split at h
    · split at h
      · exact kept _ h
      · exact kept _ h
    · exact kept _ h
  · cases h

end Ty

/-- The steps of building, and what they do. -/
structure Laying where
  World : Type
  /-- The second world comes after the first. -/
  Below : World → World → Prop
  /-- The expression may be used. -/
  Sees : World → Expr → Prop
  /-- The callable may be called. -/
  Invocable : World → Expr → Prop
  /-- From the world on the computation does what it may, and gives a result as said in the world it leads to. -/
  Lays : {α : Type} → World → (World → α → Prop) → Build α → Prop
  below_refl : ∀ w, Below w w
  below_trans : ∀ {w w' w''}, Below w w' → Below w' w'' → Below w w''
  sees_mono : ∀ {w w' e}, Sees w e → Below w w' → Sees w' e
  sees_child : ∀ {w e c}, Sees w e → c ∈ e.children → Sees w c
  sees_made : ∀ {w e}, e.var? = none → e.isMade = true → e.Inherits → (∀ c ∈ e.children, Sees w c) → Sees w e
  invocable_mono : ∀ {w w' e}, Invocable w e → Below w w' → Invocable w' e
  captured : ∀ {w e vs}, Invocable w e → Build.captures e = .ok vs → ∀ v ∈ vs, Sees w v
  pure_lays : ∀ {α w} {a : α} {P : World → α → Prop}, (∀ w', Below w w' → P w' a) → Lays w P (pure a)
  throw_lays : ∀ {α w} {P : World → α → Prop} (e : Fault), Lays w P (throw e)
  bind_lays : ∀ {α β w} {P : World → α → Prop} {Q : World → β → Prop} {x : Build α} {f : α → Build β}, Lays w P x →
    (∀ w' a, Below w w' → P w' a → Lays w' Q (f a)) → Lays w Q (x >>= f)
  mono_lays : ∀ {α w} {P P' : World → α → Prop} {x : Build α}, Lays w P x →
    (∀ w' a, Below w w' → P w' a → P' w' a) → Lays w P' x
  lookupFn_lays : ∀ {w} fn, Lays w (fun _ _ => True) (Build.lookupFn fn)
  callee_lays : ∀ {w e}, Invocable w e → Lays w (fun w' f => ∀ w'', Below w' w'' → ∀ args, (∀ a ∈ args, Sees w'' a) →
    Sees w'' (.call f.name args f.result)) (Build.callee e)
  freshVar_lays : ∀ {w} t name, Lays w (fun _ e => ∃ x, e = .var x t) (Build.freshVar t name)
  temp_lays : ∀ {w v} name, Sees w v → Lays w (fun w' e => Sees w' e ∧ e.ty = v.ty) (Build.temp v name)
  store_lays : ∀ {w array idx region v}, Sees w (.index array idx region) → Sees w v →
    Lays w (fun _ _ => True) (Build.emit (.assign (.index array idx region) v))

namespace Laying

open Build

variable {L : Laying} {w w' w'' : L.World} {e c : Expr} {t : Ty}

theorem Below.refl (w : L.World) : L.Below w w := L.below_refl w

theorem Below.trans (h : L.Below w w') (h' : L.Below w' w'') : L.Below w w'' := L.below_trans h h'

theorem Sees.mono (h : L.Sees w e) (hw : L.Below w w') : L.Sees w' e := L.sees_mono h hw

theorem Invocable.mono (h : L.Invocable w e) (hw : L.Below w w') : L.Invocable w' e := L.invocable_mono h hw

namespace Lays

variable {α β : Type} {P P' : L.World → α → Prop} {Q : L.World → β → Prop} {x : Build α}

theorem pure {a : α} (h : ∀ w', L.Below w w' → P w' a) : L.Lays w P (pure a) := L.pure_lays h

theorem fail (e : Error) : L.Lays w P (fail e) := L.throw_lays (.error e)

theorem bind {f : α → Build β} (hx : L.Lays w P x) (hf : ∀ w' a, L.Below w w' → P w' a → L.Lays w' Q (f a)) :
    L.Lays w Q (x >>= f) := L.bind_lays hx hf

theorem mono (hx : L.Lays w P x) (h : ∀ w' a, L.Below w w' → P w' a → P' w' a) : L.Lays w P' x := L.mono_lays hx h

theorem lift {x : Except Error α} (h : ∀ a, x = .ok a → ∀ w', L.Below w w' → P w' a) :
    L.Lays w P (liftM x : Build α) := by
  cases x with
  | error e => exact fail e
  | ok a => exact pure (h a rfl)

theorem mapM {f : α → Build β} {xs : List α} (hQ : ∀ {w w' : L.World} {c : β}, L.Below w w' → Q w c → Q w' c)
    (h : ∀ a ∈ xs, ∀ w', L.Below w w' → L.Lays w' Q (f a)) :
    L.Lays w (fun w' cs => cs.length = xs.length ∧ ∀ c ∈ cs, Q w' c) (xs.mapM f) := by
  induction xs generalizing w with
  | nil =>
    rw [List.mapM_nil]
    exact pure fun _ _ => ⟨rfl, fun _ hc => absurd hc List.not_mem_nil⟩
  | cons a xs ih =>
    rw [List.mapM_cons]
    refine bind (h a List.mem_cons_self w (.refl w)) fun w1 c hw1 hc => ?_
    refine bind (ih fun a ha w' hw' => h a (List.mem_cons_of_mem _ ha) w' (hw1.trans hw')) fun w2 cs hw2 hcs => ?_
    refine pure fun w3 hw3 => ⟨by simp [hcs.1], fun d hd => ?_⟩
    rcases List.mem_cons.mp hd with rfl | hd
    · exact hQ (hw2.trans hw3) hc
    · exact hQ hw3 (hcs.2 d hd)

end Lays

/-! ## Scalars -/

/-- A node whose type names no functions. -/
theorem sees_plain (hv : e.var? = none) (he : e.isMade = true) (ht : e.ty.mentions = [])
    (hc : ∀ c ∈ e.children, L.Sees w c) :
    L.Sees w e := L.sees_made hv he (Expr.inherits_of_plain ht) hc

theorem sees_const {k : Const} (ht : t.mentions = []) : L.Sees w (.const k t) := sees_plain rfl rfl ht (by simp)

variable {es args dims : List Expr} {y v idx array : Expr}

theorem sees_tupleOf (h : ∀ e ∈ es, L.Sees w e) : L.Sees w (.tupleOf es) := by
  refine L.sees_made rfl rfl (fun f hf => ?_) h
  obtain ⟨t, ht, hf⟩ := Ty.mem_mentionsAll.mp hf
  obtain ⟨e, he, rfl⟩ := List.mem_map.mp ht
  exact ⟨e, he, hf⟩

theorem sees_int (i : Int64) (elt : ScalarTy) : L.Sees w (.int i elt) := sees_const rfl

theorem sees_scalar (i : Int64) (elt : ScalarTy) : L.Sees w (.scalar i elt) := by
  cases elt <;> exact sees_const rfl

theorem sees_nothing : L.Sees w .nothing := sees_const rfl

theorem sees_range {start stop step : Expr} (h1 : L.Sees w start) (h2 : L.Sees w stop) (h3 : L.Sees w step) :
    L.Sees w (.range start stop step) :=
  sees_plain rfl rfl rfl (by simp [Expr.range, h1, h2, h3])

theorem sees_wholeAxis : L.Sees w .wholeAxis := sees_range sees_nothing sees_nothing (sees_int 1 .i64)

theorem sees_wholeIndex (rank : Nat) : L.Sees w (.wholeIndex rank) :=
  sees_tupleOf fun _ he => List.eq_of_mem_replicate he ▸ sees_wholeAxis

theorem sees_lt {x : Expr} (hx : L.Sees w x) (hy : L.Sees w y) : L.Sees w (.prim .lt [x, y] .bool) :=
  sees_plain rfl rfl rfl (by simp [hx, hy])

theorem temp_sees (h : L.Sees w v) (name : String) : L.Lays w L.Sees (temp v name) :=
  (L.temp_lays name h).mono fun _ _ _ => And.left

theorem cast_lays (h : L.Sees w v) (elt : ScalarTy) : L.Lays w L.Sees (Build.cast v elt) := by
  unfold Build.cast
  split
  · exact .fail _
  · split
    · exact .pure fun w' hw => h.mono hw
    · split
      · exact .pure fun w' _ => sees_scalar _ _
      · exact .pure fun w' _ => sees_scalar _ _
      · exact temp_sees (sees_plain rfl rfl rfl (by simpa using h)) _

theorem coerce_lays (h : L.Sees w v) (t : Ty) (context : String) : L.Lays w L.Sees (coerce v t context) := by
  unfold coerce
  split
  · exact .pure fun w' hw => h.mono hw
  · split
    · exact cast_lays h _
    · exact .fail _

theorem castAll_lays {ps : List (Expr × ScalarTy)} (h : ∀ p ∈ ps, L.Sees w p.1) :
    L.Lays w (fun w' es => es.length = ps.length ∧ ∀ e ∈ es, L.Sees w' e) (castAll ps) := by
  induction ps generalizing w with
  | nil => exact .pure fun _ _ => ⟨rfl, by simp⟩
  | cons p ps ih =>
    refine (cast_lays (h p List.mem_cons_self) _).bind fun w1 e hw1 he => ?_
    refine (ih fun q hq => (h q (List.mem_cons_of_mem _ hq)).mono hw1).bind fun w2 es hw2 hes => ?_
    refine .pure fun w3 hw3 => ⟨by simp [hes.1], fun d hd => ?_⟩
    rcases List.mem_cons.mp hd with rfl | hd
    · exact he.mono (hw2.trans hw3)
    · exact (hes.2 d hd).mono hw3

theorem prim_lays (h : ∀ a ∈ args, L.Sees w a) (p : Prim) (name : String) : L.Lays w L.Sees (prim p args name) := by
  refine Lays.bind (P := fun _ _ => True) (.lift fun _ _ _ _ => trivial) fun w1 tys hw1 _ => ?_
  refine (castAll_lays fun q hq => (h q.1 (List.of_mem_zip hq).1).mono hw1).bind fun w2 es hw2 hes => ?_
  split
  · show L.Lays w2 L.Sees (literal _ _)
    unfold literal
    split
    · exact .pure fun w3 _ => sees_int _ _
    · exact L.throw_lays .broken
  · have hnode : L.Sees w2 (.prim p es (.scalar (p.resultTy (p.operandTys tys)))) := sees_plain rfl rfl rfl hes.2
    exact temp_sees hnode _

theorem prim_two_lays {x : Expr} (hx : L.Sees w x) (hy : L.Sees w y) (p : Prim) (name : String) :
    L.Lays w L.Sees (prim p [x, y] name) :=
  prim_lays (by simp [hx, hy]) p name

theorem prod_lays (h : ∀ e ∈ es, L.Sees w e) (name : String) : L.Lays w L.Sees (prod es name) := by
  unfold prod
  split
  · exact .pure fun _ _ => sees_int _ _
  · rename_i v vs
    obtain ⟨hv, hvs⟩ := List.forall_mem_cons.mp h
    clear h
    induction vs generalizing w v with
    | nil =>
      rw [List.foldlM_nil]
      exact .pure fun w' hw => hv.mono hw
    | cons u us ih =>
      rw [List.foldlM_cons]
      obtain ⟨hu, hus⟩ := List.forall_mem_cons.mp hvs
      exact (prim_two_lays hv hu _ _).bind fun w1 acc hw1 hacc => ih _ hacc fun e he => (hus e he).mono hw1

/-! ## Tuples and arrays -/

theorem proj_lays {tuple : Expr} (h : L.Sees w tuple) (i : Nat) : L.Lays w L.Sees (proj tuple i) := by
  unfold proj
  split
  · exact .fail _
  · rename_i ts hts
    split
    · exact .fail _
    · rename_i t ht
      have hnode : L.Sees w (.proj tuple i t) :=
        L.sees_made rfl rfl (fun f hf => ⟨tuple, List.mem_singleton_self _, Ty.mentions_item hts ht hf⟩)
          (by simpa using h)
      split
      · split
        · rename_i items u item hitem
          exact .pure fun w' hw => (L.sees_child h (List.mem_of_getElem? hitem)).mono hw
        · exact temp_sees hnode _
      · exact temp_sees hnode _

theorem sees_index {x : Expr} {r : Ty} (hx : L.Sees w x) (hi : L.Sees w idx) (h : x.ty.indexTy idx.ty = some r) :
    L.Sees w (.index x idx r) :=
  sees_plain rfl rfl (Ty.mentions_indexTy h) (by simp [hx, hi])

theorem index_lays {x : Expr} (hx : L.Sees w x) (hi : L.Sees w idx) (name : String) :
    L.Lays w L.Sees (index x idx name) := by
  unfold index
  split
  · exact .pure fun w' hw => hx.mono hw
  · split
    · split
      · exact proj_lays hx _
      · exact .fail _
    · exact .fail _
  · split
    · exact temp_sees (sees_index hx hi ‹_›) _
    · exact .fail _

theorem attr_lays (h : L.Sees w array) (field : Field) : L.Lays w L.Sees (attr array field) := by
  unfold attr
  split
  · refine temp_sees (sees_plain rfl rfl ?_ (by simpa using h)) _
    cases field with
    | shape | strides => exact Ty.mentions_extents _
    | _ => rfl
  · exact .fail _

theorem attrAlong_lays (h : L.Sees w array) (field : Field) (axis : Option Nat) :
    L.Lays w L.Sees (attrAlong array field axis) := by
  refine (attr_lays h field).bind fun w1 tuple _ htuple => ?_
  cases axis with
  | none => exact .pure fun w' hw => htuple.mono hw
  | some axis =>
    show L.Lays _ _ (if _ then _ else _)
    split
    · exact .fail _
    · exact proj_lays htuple _

theorem shape_lays (h : L.Sees w array) (axis : Option Nat) : L.Lays w L.Sees (shape array axis) :=
  attrAlong_lays h .shape axis

theorem extents_lays {shape : Expr} (h : L.Sees w shape) (rank : Nat) :
    L.Lays w (fun w' es => es.length = rank ∧ ∀ e ∈ es, L.Sees w' e) (extents shape rank) := by
  refine (Lays.mapM (fun hw he => he.mono hw) fun i _ w' hw => proj_lays (h.mono hw) i).mono fun w' es _ hes => ?_
  rw [List.length_range] at hes
  exact hes

theorem rowMajorStrides_lays (elt : ScalarTy) (h : ∀ e ∈ dims, L.Sees w e) :
    L.Lays w (fun w' es => ∀ e ∈ es, L.Sees w' e) (rowMajorStrides elt dims) := by
  induction dims generalizing w with
  | nil => exact .pure fun _ _ _ he => absurd he List.not_mem_nil
  | cons d ds ih =>
    cases ds with
    | nil => exact .pure fun _ _ e he => List.mem_singleton.mp he ▸ sees_int _ _
    | cons d' ds =>
      have hrest := (List.forall_mem_cons.mp h).2
      refine (ih hrest).bind fun w1 inner hw1 hinner => ?_
      have hhead : L.Sees w1 (inner.head?.getD (.int64 1)) := by
        cases inner with
        | nil => exact sees_int _ _
        | cons e es => exact hinner e List.mem_cons_self
      refine (prim_two_lays hhead ((hrest d' List.mem_cons_self).mono hw1) _ _).bind fun w2 e hw2 he => ?_
      refine .pure fun w3 hw3 c hc => ?_
      rcases List.mem_cons.mp hc with rfl | hc
      · exact he.mono hw3
      · exact (hinner c hc).mono (hw2.trans hw3)

/-- Room that has been prepared: an array, or a name for a scalar that is still to be defined. -/
def Room (L : Laying) (w : L.World) (e : Expr) : Prop :=
  (∃ x elt, e = .var x (.scalar elt)) ∨ (0 < e.ty.rank ∧ L.Sees w e)

theorem Room.mono (h : L.Room w e) (hw : L.Below w w') : L.Room w' e :=
  h.imp_right fun h => ⟨h.1, h.2.mono hw⟩

theorem Room.sees (h : L.Room w e) (hr : 0 < e.ty.rank) : L.Sees w e := by
  rcases h with ⟨x, elt, rfl⟩ | h
  · exact absurd hr (Nat.lt_irrefl 0)
  · exact h.2

theorem allocShaped_lays (elt : ScalarTy) (h : ∀ e ∈ dims, L.Sees w e) (name : String) :
    L.Lays w (fun w' e => L.Room w' e ∧ (dims ≠ [] → L.Sees w' e)) (allocShaped elt dims name) := by
  unfold allocShaped
  split
  · rename_i hd
    rw [List.isEmpty_iff] at hd
    refine (L.freshVar_lays _ _).mono fun w' e _ ⟨x, he⟩ => ⟨.inl ⟨x, elt, he⟩, fun hne => absurd hd hne⟩
  · rename_i hd
    rw [List.isEmpty_iff] at hd
    have hp : ∀ p ∈ dims.map fun d => (d, ScalarTy.i64), L.Sees w p.1 := by
      intro p hp
      obtain ⟨d, hm, rfl⟩ := List.mem_map.mp hp
      exact h d hm
    refine (castAll_lays hp).bind fun w1 es _ ⟨hlen, hes⟩ => (prod_lays hes _).bind fun w2 count hw2 hcount => ?_
    have halloc : L.Sees w2 (.alloc elt count (.ptr elt)) :=
      sees_plain rfl rfl rfl (by simpa using hcount)
    refine (temp_sees halloc _).bind fun w3 data hw3 hdata => ?_
    have hes3 : ∀ e ∈ es, L.Sees w3 e := fun e he => (hes e he).mono (hw2.trans hw3)
    refine (rowMajorStrides_lays elt hes3).bind fun w4 strides hw4 hstrides => ?_
    have hview : L.Sees w4 (.view data (.tupleOf es) (.tupleOf strides) (.int64 0) count (.array elt es.length)) := by
      refine sees_plain rfl rfl rfl ?_
      simp only [Expr.children, List.forall_mem_cons]
      exact ⟨hdata.mono hw4, sees_tupleOf fun e he => (hes3 e he).mono hw4, sees_tupleOf hstrides, sees_int _ _,
        hcount.mono (hw3.trans hw4), by simp⟩
    refine (L.temp_lays _ hview).mono fun w' e _ ⟨he, hty⟩ => ⟨.inr ⟨?_, he⟩, fun _ => he⟩
    have hpos : 0 < dims.length := List.length_pos_iff.mpr hd
    rw [hty]
    show 0 < es.length
    rw [hlen, List.length_map]
    exact hpos

theorem stored_lays (h : L.Sees w v) (region : Ty) : L.Lays w L.Sees (stored region v) := by
  unfold stored
  split
  · exact cast_lays h _
  · exact cast_lays h _
  · split
    · exact .pure fun w' hw => h.mono hw
    · exact .fail _

theorem setIndex_lays (ha : L.Sees w array) (hi : L.Sees w idx) (hv : L.Sees w v) :
    L.Lays w (fun _ _ => True) (setIndex array idx v) := by
  unfold setIndex
  split
  · exact .fail _
  · rename_i region hr
    refine (stored_lays hv region).bind fun w1 v' hw1 hv' => ?_
    exact L.store_lays (sees_index (ha.mono hw1) (hi.mono hw1) hr) hv'

/-! ## Calls -/

theorem passAll_lays {ps : List (Expr × Ty)} (h : ∀ p ∈ ps, L.Sees w p.1) :
    L.Lays w (fun w' es => ∀ e ∈ es, L.Sees w' e) (passAll ps) := by
  induction ps generalizing w with
  | nil => exact .pure fun _ _ _ he => absurd he List.not_mem_nil
  | cons p ps ih =>
    obtain ⟨hp, hps⟩ := List.forall_mem_cons.mp h
    have hrest : ∀ w1 e, L.Below w w1 → L.Sees w1 e →
        L.Lays w1 (fun w' es => ∀ e ∈ es, L.Sees w' e) (do return e :: (← passAll ps)) := by
      intro w1 e hw1 he
      refine (ih fun q hq => (hps q hq).mono hw1).bind fun w2 es hw2 hes => .pure fun w3 hw3 => ?_
      exact List.forall_mem_cons.mpr ⟨he.mono (hw2.trans hw3), fun e he => (hes e he).mono hw3⟩
    unfold passAll
    split
    · exact Lays.bind (.pure fun w' hw => hp.mono hw) hrest
    · exact (coerce_lays hp _ _).bind hrest

theorem call_lays {callable : Expr} (hc : L.Invocable w callable) (ha : ∀ a ∈ args, L.Sees w a)
    (name : String) : L.Lays w L.Sees (call callable args name) := by
  refine (L.callee_lays hc).bind fun w1 f hw1 hf => ?_
  refine Lays.bind (P := fun w' vs => ∀ v ∈ vs, L.Sees w' v)
    (.lift fun vs hvs w' hw v hv => (L.captured hc hvs v hv).mono (hw1.trans hw)) fun w2 vs hw2 hvs => ?_
  have hall : ∀ a ∈ vs ++ args, L.Sees w2 a := by
    intro a ha'
    rcases List.mem_append.mp ha' with ha' | ha'
    · exact hvs a ha'
    · exact (ha a ha').mono (hw1.trans hw2)
  show L.Lays _ _ (if _ then _ else _)
  split
  · exact .fail _
  · refine (passAll_lays fun p hp => hall p.1 (List.of_mem_zip hp).1).bind fun w3 es hw3 hes => ?_
    exact temp_sees (hf w3 (hw2.trans hw3) es hes) _

theorem checkExtents_lays (axis : Nat) (sizes : List Expr) : L.Lays w (fun _ _ => True) (checkExtents axis sizes) := by
  show L.Lays _ _ (if _ then _ else _)
  split
  · exact .fail _
  · exact .pure fun _ _ => trivial

theorem allocLike_lays {first : Expr} {outer : List Expr} (hf : L.Sees w first) (ho : ∀ e ∈ outer, L.Sees w e)
    (hne : outer ≠ []) : L.Lays w L.Sees (allocLike first outer) := by
  unfold allocLike
  split
  · exact (allocShaped_lays _ ho _).mono fun _ _ _ h => h.2 hne
  · refine (shape_lays hf none).bind fun w1 shape hw1 hshape =>
      (extents_lays hshape _).bind fun w2 inner hw2 hinner => ?_
    have hall : ∀ e ∈ outer ++ inner, L.Sees w2 e := by
      intro e he
      rcases List.mem_append.mp he with he | he
      · exact (ho e he).mono (hw1.trans hw2)
      · exact hinner.2 e he
    exact (allocShaped_lays _ hall _).mono fun _ _ _ h => h.2 (by simp [hne])
  · exact .fail _

end Laying

end ArrayIR
