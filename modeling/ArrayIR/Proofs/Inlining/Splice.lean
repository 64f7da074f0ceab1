/-
  ArrayIR.Proofs.Inlining.Splice — a spliced body runs as a call does.

  What inlining emits are temporaries for the arguments that are not names or
  constants, and a copy of the callee's body (`Build.inline_ok`). The temporaries are
  bound to the values that a call would pass (`Build.Shares.run`), and from there the
  copy simulates the body. So running the body on the arguments' values, and running
  the spliced code and evaluating the copied result after it, end alike
  (`Build.Spliced.outcome`).
-/

import ArrayIR.Pass.Inlining
import ArrayIR.Proofs.Answer
import ArrayIR.Proofs.Casting
import ArrayIR.Proofs.Publish

namespace ArrayIR

open Renaming (Extends bind_atomic bind_renames expr_ok image? value?)
open Stmt (binds blockBinds blockBinds_append blockCopy blockReturns)

namespace Build

variable {b b' : Builder} {r r' : Renaming}

/-! ## Arguments -/

/-- `out` binds temporaries to the arguments that cannot be repeated; after it, the parameters stand for
the arguments as `r'` says. -/
def Shares : List ((VarName × Ty) × Expr) → Renaming → Block → Renaming → Prop
  | [], r, out, r' => out = [] ∧ r' = r
  | ((x, _), e) :: ps, r, out, r' =>
    (e.isAtom = true ∧ Shares ps (r.bind x e) out r') ∨
      ∃ y out', out = .assign (.var y e.ty) e :: out' ∧ Shares ps (r.bind x (.var y e.ty)) out' r'

theorem shared_ok {e e' : Expr} {name : String} (h : shared e name b = .ok e' b') :
    (e.isAtom = true ∧ e' = e ∧ b' = b) ∨
      ∃ y, e' = .var y e.ty ∧ Emits [y] [.assign (.var y e.ty) e] b b' ∧
        Taken [y] b.session.nextName b'.session.nextName := by
  unfold shared at h
  split at h
  case h_4 => exact .inr (temp_ok h)
  all_goals
    cases h
    exact .inl ⟨rfl, rfl, rfl⟩

theorem fitsParam_self (t : Ty) : fitsParam t t = true := by simp [fitsParam]

variable {ps : List ((VarName × Ty) × Expr)}

/-- Binding parameters to arguments of their own types. -/
theorem bindParams_ok (hty : ∀ p ∈ ps, p.2.ty = p.1.2) (h : bindParams ps r b = .ok r' b') :
    ∃ out, Shares ps r out r' ∧ Emits (blockBinds out) out b b' ∧
      Taken (blockBinds out) b.session.nextName b'.session.nextName := by
  induction ps generalizing r b with
  | nil =>
    cases h
    exact ⟨[], ⟨rfl, rfl⟩, .refl _, .nil _ _⟩
  | cons p ps ih =>
    obtain ⟨⟨x, t⟩, e⟩ := p
    have ht : e.ty = t := hty _ List.mem_cons_self
    have hps : ∀ p ∈ ps, p.2.ty = p.1.2 := fun p hp => hty p (List.mem_cons_of_mem _ hp)
    rw [bindParams, ht, if_pos (fitsParam_self t), pure_bind] at h
    obtain ⟨e', b1, he, h⟩ := state_bind_ok h
    obtain ⟨out, hshares, hemits, htaken⟩ := ih hps h
    rcases shared_ok he with ⟨hatom, rfl, rfl⟩ | ⟨y, rfl, hemit, hy⟩
    · exact ⟨out, .inl ⟨hatom, hshares⟩, hemits, htaken⟩
    · exact ⟨_ :: out, .inr ⟨y, out, rfl, hshares⟩, hemit.append hemits, hy.append htaken hemit.next hemits.next⟩

namespace Shares

variable {out : Block} {x : VarName}

theorem keeps (h : Shares ps r out r') (hx : x ∉ ps.map (·.1.1)) : r'.renames.get? x = r.renames.get? x := by
  induction ps generalizing r out with
  | nil => rw [h.2]
  | cons p ps ih =>
    obtain ⟨⟨y, t⟩, e⟩ := p
    rw [List.map_cons, List.mem_cons, not_or] at hx
    rcases h with ⟨-, h⟩ | ⟨z, out', -, h⟩
    · rw [ih h hx.2, bind_renames, if_neg hx.1]
    · rw [ih h hx.2, bind_renames, if_neg hx.1]

theorem atomic (h : Shares ps r out r') (hr : r.Atomic) : r'.Atomic := by
  induction ps generalizing r out with
  | nil => exact h.2 ▸ hr
  | cons p ps ih =>
    rcases h with ⟨ha, h⟩ | ⟨z, out', -, h⟩
    · exact ih h (bind_atomic hr _ ha)
    · exact ih h (bind_atomic hr _ rfl)

/-- Parameters of declared types stand for expressions of these types. -/
theorem typed (h : Shares ps r out r') (hty : ∀ p ∈ ps, p.2.ty = p.1.2)
    (hdecl : ∀ p ∈ ps, r.source.get? p.1.1 = some p.1.2) : r.Extends r' := by
  induction ps generalizing r out with
  | nil => exact h.2 ▸ .refl r
  | cons p ps ih =>
    obtain ⟨⟨x, t⟩, e⟩ := p
    have ht : e.ty = t := hty _ List.mem_cons_self
    have hbind : ∀ e', e'.ty = t → r.Extends (r.bind x e') := fun e' he' => by
      refine ⟨rfl, fun hr => hr.bind fun u hu => ?_⟩
      rw [hdecl _ List.mem_cons_self] at hu
      cases hu
      exact he'
    have hps : ∀ p ∈ ps, p.2.ty = p.1.2 := fun p hp => hty p (List.mem_cons_of_mem _ hp)
    have hds : ∀ p ∈ ps, r.source.get? p.1.1 = some p.1.2 := fun p hp => hdecl p (List.mem_cons_of_mem _ hp)
    rcases h with ⟨-, h⟩ | ⟨z, out', -, h⟩
    · exact (hbind e ht).trans (ih h hps hds)
    · exact (hbind (.var z e.ty) ht).trans (ih h hps hds)

/-- A name stands for a constant only if an argument is that constant. -/
theorem const_mem (h : Shares ps r out r') {c : Const} {t : Ty} (hx : r'.renames.get? x = some (.const c t)) :
    r.renames.get? x = some (.const c t) ∨ .const c t ∈ ps.map (·.2) := by
  induction ps generalizing r out with
  | nil => exact .inl (h.2 ▸ hx)
  | cons p ps ih =>
    obtain ⟨⟨y, u⟩, e⟩ := p
    have tail : ∀ e', (r.bind y e').renames.get? x = some (.const c t) ∨ .const c t ∈ ps.map (·.2) →
        e' = .const c t ∨ r.renames.get? x = some (.const c t) ∨ .const c t ∈ (((y, u), e) :: ps).map (·.2) := by
      rintro e' (hm | hm)
      · rw [bind_renames] at hm
        split at hm
        · exact .inl (Option.some.inj hm)
        · exact .inr (.inl hm)
      · exact .inr (.inr (List.mem_cons_of_mem _ hm))
    rcases h with ⟨-, h⟩ | ⟨z, out', -, h⟩
    · rcases tail e (ih h) with rfl | hm
      · exact .inr List.mem_cons_self
      · exact hm
    · rcases tail _ (ih h) with hm | hm
      · cases hm
      · exact hm

theorem not_returns (h : Shares ps r out r') : blockReturns out = false := by
  induction ps generalizing r out with
  | nil => rw [h.1, blockReturns]
  | cons p ps ih =>
    rcases h with ⟨-, h⟩ | ⟨z, out', rfl, h⟩
    · exact ih h
    · rw [blockReturns, Stmt.returns, ih h]
      rfl

/-- A parameter stands for a name that an argument reads, or for a temporary. -/
theorem image (h : Shares ps r out r') (hnd : (ps.map (·.1.1)).Nodup) {y : VarName} (hx : x ∈ ps.map (·.1.1))
    (hy : r'.image? x = some y) : y ∈ blockBinds out ∨ ∃ p ∈ ps, y ∈ p.2.reads := by
  induction ps generalizing r out with
  | nil => exact absurd hx List.not_mem_nil
  | cons p ps ih =>
    obtain ⟨⟨z, t⟩, e⟩ := p
    rw [List.map_cons, List.nodup_cons] at hnd
    rcases h with ⟨ha, h⟩ | ⟨u, out', rfl, h⟩
    · rcases List.mem_cons.mp hx with rfl | hx
      · rw [image?, h.keeps hnd.1, bind_renames, if_pos rfl] at hy
        cases e with
        | var v s =>
          cases hy
          exact .inr ⟨_, List.mem_cons_self, Expr.mem_reads_var y s⟩
        | _ => cases hy
      · refine (ih h hnd.2 hx).imp_right ?_
        rintro ⟨p, hp, hr⟩
        exact ⟨p, List.mem_cons_of_mem _ hp, hr⟩
    · rcases List.mem_cons.mp hx with rfl | hx
      · rw [image?, h.keeps hnd.1, bind_renames, if_pos rfl] at hy
        cases hy
        exact .inl List.mem_cons_self
      · rcases ih h hnd.2 hx with hm | ⟨p, hp, hr⟩
        · exact .inl (List.mem_cons_of_mem _ hm)
        · exact .inr ⟨p, List.mem_cons_of_mem _ hp, hr⟩

/-- The temporaries are bound to values of the arguments as a call evaluates them, and every parameter
then stands for its argument's value. Those that are repeated must be bound already. -/
theorem run (h : Shares ps r out r') (hnd : (ps.map (·.1.1)).Nodup) (call : Caller) (fuel : Nat) {L0 L : Locals}
    (hext : ∀ x v, L0.get? x = some v → L.get? x = some v) (hbound : ∀ p ∈ ps, ∀ x ∈ p.2.reads, ∃ v, L0.get? x = some v)
    (hfresh : ∀ y ∈ blockBinds out, L0.get? y = none) (hout : (blockBinds out).Nodup) :
    ∃ K : List Value → Locals,
      Eval.block call fuel out L = (Eval.exprs call L0 (ps.map (·.2)) >>= fun vs => pure (.next (K vs))) ∧
      ∀ st vs st', Eval.exprs call L0 (ps.map (·.2)) st = .ok vs st' →
        (∀ x, x ∉ blockBinds out → (K vs).get? x = L.get? x) ∧
          List.Forall₂ (fun p v => r'.value? (K vs) p.1.1 = some v) ps vs := by
  induction ps generalizing r out L with
  | nil =>
    obtain ⟨rfl, rfl⟩ := h
    refine ⟨fun _ => L, ?_, ?_⟩
    · rw [Eval.block_nil, List.map_nil, Eval.exprs, pure_bind]
    · intro st vs st' hvs
      rw [List.map_nil, Eval.exprs] at hvs
      cases hvs
      exact ⟨fun _ _ => rfl, .nil⟩
  | cons p ps ih =>
    obtain ⟨⟨x, t⟩, e⟩ := p
    rw [List.map_cons, List.nodup_cons] at hnd
    have hps : ∀ p ∈ ps, ∀ x ∈ p.2.reads, ∃ v, L0.get? x = some v := fun p hp => hbound p (List.mem_cons_of_mem _ hp)
    have hsame : ∀ y ∈ e.reads, L.get? y = L0.get? y := by
      intro y hy
      obtain ⟨v, hv⟩ := hbound _ List.mem_cons_self y hy
      rw [hv, hext y v hv]
    rcases h with ⟨ha, h⟩ | ⟨y, out', rfl, h⟩
    · -- a name, a constant or a function: nothing is evaluated ahead
      obtain ⟨K, hrun, hK⟩ := ih h hnd.2 hext hps hfresh hout
      obtain ⟨v, hv, hval⟩ : ∃ v, Eval.expr call L0 e = pure v ∧ ∀ L' : Locals, (∀ y ∈ e.reads, L'.get? y = L0.get? y) →
          Renaming.atomValue L' e = some v := by
        cases e with
        | var y u =>
          obtain ⟨v, hy⟩ := hbound _ List.mem_cons_self y (Expr.mem_reads_var y u)
          exact ⟨v, by rw [Eval.expr, hy], fun L' hL' => (hL' y (Expr.mem_reads_var y u)).trans hy⟩
        | const c u => exact ⟨_, by rw [Eval.expr], fun _ _ => rfl⟩
        | fnRef f u => exact ⟨_, by rw [Eval.expr], fun _ _ => rfl⟩
        | _ => cases ha
      refine ⟨fun vs => K vs.tail, ?_, ?_⟩
      · rw [hrun, List.map_cons, Eval.exprs, hv, pure_bind, bind_assoc]
        simp only [pure_bind, List.tail_cons]
      · intro st vs st' hvs
        rw [List.map_cons, Eval.exprs, hv, pure_bind] at hvs
        obtain ⟨us, s1, hus, hvs⟩ := state_bind_ok hvs
        obtain ⟨rfl, rfl⟩ := state_pure_ok hvs
        obtain ⟨hkeep, hvals⟩ := hK st us s1 hus
        refine ⟨hkeep, .cons ?_ hvals⟩
        show r'.value? (K us) x = some v
        rw [value?, h.keeps hnd.1, bind_renames, if_pos rfl]
        refine hval _ fun y hy => ?_
        obtain ⟨u, hu⟩ := hbound _ List.mem_cons_self y hy
        have hout : y ∉ blockBinds out := by
          intro hm
          rw [hfresh y hm] at hu
          cases hu
        rw [hkeep y hout, hsame y hy]
    · -- anything else goes to a temporary
      rw [blockBinds, binds, List.singleton_append, List.nodup_cons] at hout
      have hy0 : L0.get? y = none := hfresh y List.mem_cons_self
      have hins : ∀ v x u, L0.get? x = some u → (L.insert y v).get? x = some u := by
        intro v x u hx
        rw [NameMap.get?_insert_of_ne L v (fun e => by rw [e, hy0] at hx; cases hx)]
        exact hext x u hx
      choose K hrun hK using fun v => ih (L := L.insert y v) h hnd.2 (hins v) hps
        (fun z hz => hfresh z (List.mem_cons_of_mem _ hz)) hout.2
      refine ⟨fun vs => K (vs.head?.getD .nothing) vs.tail, ?_, ?_⟩
      · rw [Eval.block_cons, Eval.stmt, Eval.expr_congr e hsame, List.map_cons, Eval.exprs, bind_assoc, bind_assoc]
        refine bind_congr fun v => ?_
        rw [pure_bind, bind_assoc]
        simp only [pure_bind, List.tail_cons, List.head?_cons, Option.getD_some]
        exact hrun v
      · intro st vs st' hvs
        rw [List.map_cons, Eval.exprs] at hvs
        obtain ⟨v, s1, -, hvs⟩ := state_bind_ok hvs
        obtain ⟨us, s2, hus, hvs⟩ := state_bind_ok hvs
        obtain ⟨rfl, rfl⟩ := state_pure_ok hvs
        obtain ⟨hkeep, hvals⟩ := hK v s1 us s2 hus
        refine ⟨fun z hz => ?_, .cons ?_ hvals⟩
        · rw [blockBinds, binds, List.singleton_append, List.mem_cons, not_or] at hz
          exact (hkeep z hz.2).trans (NameMap.get?_insert_of_ne L v hz.1)
        · show r'.value? (K v us) x = some v
          rw [value?, h.keeps hnd.1, bind_renames, if_pos rfl]
          exact (hkeep y hout.1).trans (NameMap.get?_insert_self L y v)

end Shares

/-! ## The spliced code -/

theorem splitReturn_ok {f : Func} {code : Block} {result : Expr} (h : splitReturn f = .ok (code, result)) :
    f.body = code ++ [.ret result] ∧ blockReturns code = false := by
  unfold splitReturn at h
  split at h
  · rename_i value hlast
    split at h
    · cases h
    · rename_i hret
      cases h
      obtain ⟨ss, hss⟩ := List.getLast?_eq_some_iff.mp hlast
      rw [hss, List.dropLast_concat] at hret ⊢
      exact ⟨rfl, by simpa using hret⟩
  · cases h

/-- What is done with the result of the spliced code: it is returned, or stored into a region. -/
def deliver (output : Option Expr) (value : Expr) : Build Expr :=
  match output with
  | none =>
    match value with
    | .var _ _ | .const _ _ => pure value
    | _ => temp value "inline_result"
  | some region => do
    setIndex region (.wholeIndex region.ty.rank) value
    return region

/-- The code spliced in for a call: `ahead` binds the arguments, `copy` is a copy of what the body does
ahead of its return, and `value` one of what it returns. The names bound have numbers from `n` up to `m`. -/
structure Spliced (f : Func) (args : List Expr) (n m : Nat) (ahead copy : Block) (value : Expr) : Prop where
  arity : args.length = f.params.length
  parts : ∃ code result r₁ r₂, f.body = code ++ [.ret result] ∧ blockReturns code = false ∧
    Shares ((f.params.zip f.paramTys).zip args) { source := f.env } ahead r₁ ∧
    blockCopy code r₁ copy r₂ ∧ Extends r₁ r₂ ∧ value = r₂.subst result
  taken : Taken (blockBinds (ahead ++ copy)) n m

/-- Inlining emits the spliced code, and then delivers its result. -/
theorem inline_ok {f : Func} {args : List Expr} {output : Option Expr} {e : Expr} (hty : args.map (·.ty) = f.paramTys)
    (h : inline f args output b = .ok e b') :
    ∃ b1 ahead copy value, Spliced f args b.session.nextName b1.session.nextName ahead copy value ∧
      Emits (blockBinds (ahead ++ copy)) (ahead ++ copy) b b1 ∧ deliver output value b1 = .ok e b' := by
  unfold inline at h
  split at h
  · cases h
  rename_i hlen
  have harity : args.length = f.params.length := by simpa using hlen
  obtain ⟨⟨code, result⟩, b0, hsplit, h⟩ := state_bind_ok h
  obtain ⟨hparts, rfl⟩ := state_lift_ok hsplit
  obtain ⟨hbody, hret⟩ := splitReturn_ok hparts
  obtain ⟨r1, b1, hbind, h⟩ := state_bind_ok h
  obtain ⟨⟨value, r2⟩, b2, hcopy, h⟩ := state_bind_ok h
  have htys : ∀ p ∈ (f.params.zip f.paramTys).zip args, p.2.ty = p.1.2 := by
    rw [← hty]
    intro p hp
    obtain ⟨i, hi, rfl⟩ := List.mem_iff_getElem.mp hp
    simp
  obtain ⟨ahead, hshares, he1, ht1⟩ := bindParams_ok htys hbind
  obtain ⟨_, r3, b3, hstmts, hvalue⟩ := pass_bind_ok hcopy
  obtain ⟨rfl, rfl, rfl⟩ := expr_ok hvalue
  obtain ⟨copy, hcopied, hnew⟩ := Renaming.stmts_copy hstmts
  refine ⟨b2, ahead, copy, _, ⟨harity, ⟨code, result, r1, r2, hbody, hret, hshares, hcopied, hnew.toExtends, rfl⟩, ?_⟩,
    ?_, ?_⟩
  · rw [blockBinds_append]
    exact ht1.append hnew.taken he1.next hnew.next
  · rw [blockBinds_append]
    exact he1.append hnew.toEmits
  · cases output <;> exact h

end Build

/-! ## Running it -/

/-- Where code is spliced in: what the arguments read is bound, the names to be bound are not, and the
buffers of all values are there. -/
structure Site (args : List Expr) (fresh : List VarName) (L : Locals) (st : Store) : Prop where
  bound : ∀ e ∈ args, ∀ x ∈ e.reads, ∃ v, L.get? x = some v
  unbound : ∀ y ∈ fresh, L.get? y = none
  live : ∀ x v, L.get? x = some v → ∀ b ∈ v.buffers, b < st.size

theorem Stmt.blockCopy.concat {ss ss' : List Stmt} {s s' : Stmt} {r r1 r' : Renaming} (h : blockCopy ss r ss' r1)
    (hs : s.Copy r1 s' r') : blockCopy (ss ++ [s]) r (ss' ++ [s']) r' := by
  induction ss generalizing r ss' with
  | nil =>
    obtain ⟨rfl, rfl⟩ := h
    exact ⟨s', r', [], hs, ⟨rfl, rfl⟩, rfl⟩
  | cons t ts ih =>
    obtain ⟨t', r2, ts', ht, hts, rfl⟩ := h
    exact ⟨t', r2, ts' ++ [s'], ht, ih hts, rfl⟩

/-- Values bound to distinct names are found under them. -/
theorem NameMap.ofList_zip_forall₂ {P : VarName → Value → Prop} {xs : List VarName} {vs : List Value}
    (hnd : xs.Nodup) (h : List.Forall₂ P xs vs) :
    ∀ x ∈ xs, ∃ v ∈ vs, P x v ∧ (NameMap.ofList (xs.zip vs)).get? x = some v := by
  intro x hx
  have hkeys : (xs.zip vs).map (·.1) = xs := List.map_fst_zip (Nat.le_of_eq h.length_eq)
  obtain ⟨i, hi, rfl⟩ := List.mem_iff_getElem.mp hx
  have hv : i < vs.length := h.length_eq ▸ hi
  refine ⟨vs[i], List.getElem_mem hv, h.get hi hv, NameMap.get?_insertAll_of_mem (hkeys.symm ▸ hnd) ?_ _⟩
  have hz : i < (xs.zip vs).length := by
    rw [List.length_zip]
    omega
  have he : (xs.zip vs)[i] = (xs[i], vs[i]) := List.getElem_zip
  exact he ▸ List.getElem_mem hz

namespace Eval

variable {call : Caller} {fuel : Nat} {f : Func} {args : List Expr} {L : Locals} {st : Store}

/-- Arguments are evaluated in step with themselves. -/
theorem exprs_self (hcall : CallersAlike .strict call call) {fresh : List VarName} (h : Site args fresh L st) :
    Outcome (.identity st.size) (Ends .strict fun w => List.Forall₂ (Likes .strict w)) (exprs call L args st)
      (exprs call L args st) := by
  have hreads : ∀ e ∈ args, ReadsAlike .strict (.identity st.size) .none L L e := by
    intro e he x hx
    obtain ⟨v, hv⟩ := h.bound e he x hx
    rw [Renaming.none_value?, hv]
    exact Value.alike_self (fun _ => trivial) fun b hb => ⟨rfl, h.live x v hv b hb⟩
  have hin := exprs_inStep (fun e _ => expr_inStep (fun _ => hcall) e) (fun e _ => Likeness.strict_admits e)
    Renaming.none_atomic hreads
  have hsubst : args.map Renaming.none.subst = args := by
    rw [List.map_congr_left fun e _ => Renaming.subst_none e, List.map_id'']
    exact fun _ => rfl
  rw [hsubst] at hin
  exact hin st st (.identity .strict st)

end Eval

namespace Build.Spliced

open Eval

variable {call : Caller} {fuel : Nat} {f : Func} {args : List Expr} {n m : Nat} {ahead copy : Block} {value : Expr}
  {L : Locals} {st : Store}

theorem not_returns (h : Spliced f args n m ahead copy value) : blockReturns (ahead ++ copy) = false := by
  obtain ⟨code, result, r1, r2, -, hret, hshares, hcopy, -, -⟩ := h.parts
  rw [Stmt.blockReturns_append, hshares.not_returns, hcopy.returns, hret]
  rfl

/-- Running the body on the values of the arguments, and running the spliced code, end alike. -/
theorem outcome (h : Spliced f args n m ahead copy value) (hverify : f.verify = .ok ())
    (hscoped : Stmt.blockWellScoped f.body f.inputs = true) (hty : args.map (·.ty) = f.paramTys)
    (hcall : CallersAlike .strict call call) (hcommutes : Stmt.blockCommutes call f.body)
    (hsite : Site args (blockBinds (ahead ++ copy)) L st) :
    Outcome (.identity st.size) (Ends .strict (Likes .strict)) ((exprs call L args >>= body call fuel f) st)
      (runThen call fuel (ahead ++ copy) L value st) := by
  obtain ⟨code, result, r1, r2, hbody, -, hshares, hcopy, -, rfl⟩ := h.parts
  have htaken := h.taken.nodup
  rw [blockBinds_append] at htaken
  have hlen : f.paramTys.length = f.params.length := by rw [← hty, List.length_map, h.arity]
  have hinputs : f.inputs = f.params := List.map_fst_zip (Nat.le_of_eq hlen.symm)
  have hparams : ((f.params.zip f.paramTys).zip args).map (·.1.1) = f.params := by
    show List.map (Prod.fst ∘ Prod.fst) _ = _
    rw [← List.map_map, List.map_fst_zip, List.map_fst_zip (by omega)]
    rw [List.length_zip, h.arity]
    omega
  have hargs : ((f.params.zip f.paramTys).zip args).map (·.2) = args := by
    refine List.map_snd_zip ?_
    rw [List.length_zip, h.arity]
    omega
  -- the check has made the callee's names distinct
  obtain ⟨D, D', hD, hD'⟩ := Func.verify_ok hverify
  have hdefined := WellFormed.params_ok hD
  have hnames := (WellFormed.block_ok hD').fresh (hdefined.2 .nil)
  have hnd : f.params.Nodup := by
    have := (hdefined.fresh .nil).1
    rwa [← hinputs]
  have hread : ∀ p ∈ (f.params.zip f.paramTys).zip args, ∀ x ∈ p.2.reads, ∃ v, L.get? x = some v :=
    fun p hp => hsite.bound p.2 (List.of_mem_zip hp).2
  have hfresh : ∀ y ∈ blockBinds ahead, L.get? y = none := fun y hy =>
    hsite.unbound y (by rw [blockBinds_append]; exact List.mem_append_left _ hy)
  obtain ⟨K, hahead, hK⟩ := hshares.run (hparams.symm ▸ hnd) call fuel (fun _ _ => id) hread hfresh
    (List.nodup_append.mp htaken).1
  rw [hargs] at hahead hK
  have hygiene : Hygiene f.inputs r1 (blockBinds f.body) (blockBinds (copy ++ [.ret (r2.subst result)])) := by
    refine ⟨fun x hx hin => hnames.2 x hx (hdefined.mem.mpr (.inl hin)), hnames.1, ?_, ?_, ?_⟩
    · intro y hy x hx himage
      rw [blockBinds_append, Stmt.blockBinds_singleton, binds, List.append_nil] at hy
      rcases hshares.image (hparams.symm ▸ hnd) (by rwa [hparams, ← hinputs]) himage with hm | ⟨p, hp, hr⟩
      · exact (List.nodup_append.mp htaken).2.2 y hm y hy rfl
      · obtain ⟨v, hv⟩ := hread p hp y hr
        rw [hsite.unbound y (by rw [blockBinds_append]; exact List.mem_append_right _ hy)] at hv
        cases hv
    · rw [blockBinds_append, Stmt.blockBinds_singleton, binds, List.append_nil]
      exact (List.nodup_append.mp htaken).2.1
    · exact hshares.atomic fun x e he => by cases he
  have hwhole : blockCopy f.body r1 (copy ++ [.ret (r2.subst result)]) r2 := by
    rw [hbody]
    exact hcopy.concat ⟨rfl, rfl⟩
  have hsim : Sim .strict (.names .strict (· ∈ f.inputs) r1) (fun _ _ => True) (block call fuel f.body)
      (block call fuel (copy ++ [.ret (r2.subst result)])) (.scope .strict r2 (Stmt.blockAfter f.body f.inputs)) :=
    copy_block_sim hcall hwhole hygiene hscoped (Likeness.strict_admitsBlock _) hcommutes
  rw [runThen_append, hahead, bind_assoc]
  refine (exprs_self hcall hsite).bind_eq fun w vs s us s' hle hvs hus hends => ?_
  obtain ⟨rfl, rfl⟩ : vs = us ∧ s = s' := by
    rw [hvs] at hus
    cases hus
    exact ⟨rfl, rfl⟩
  obtain ⟨hag, hlikes⟩ := hends
  rw [pure_bind]
  show Outcome w _ (body call fuel f vs s) (runThen call fuel copy (K vs) (r2.subst result) s)
  rw [runThen_eq_ret f.name, body]
  have hvals : List.Forall₂ (fun x v => r1.value? (K vs) x = some v) f.params vs := by
    rw [← hparams, List.forall₂_map_left_iff]
    exact (hK st vs s hvs).2
  have hlink : (Link.names .strict (· ∈ f.inputs) r1).holds w (.ofList (f.params.zip vs)) (K vs) := by
    intro x hx
    obtain ⟨v, hv, hval, hget⟩ := NameMap.ofList_zip_forall₂ hnd hvals x (hinputs ▸ hx)
    rw [hget, hval]
    obtain ⟨i, hi, rfl⟩ := List.mem_iff_getElem.mp hv
    exact hlikes.get hi hi
  refine (hsim w _ s _ s hag hlink trivial).bind fun w1 a t b t' _ hp => ?_
  obtain ⟨hag', hp⟩ := hp
  cases a <;> cases b
  · trivial
  · exact hp.elim
  · exact hp.elim
  · exact ⟨w1, le_rfl, hag', hp⟩

end Build.Spliced

end ArrayIR
