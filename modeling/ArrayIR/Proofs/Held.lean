/-
  ArrayIR.Proofs.Held — loops whose condition cannot change.

  An expression of names, constants and scalar operations gives one result, whatever
  the store (`Eval.held_storeless`). A `while` loop with such a condition that binds
  none of the names in it is left at its first test or not at all
  (`Eval.while_fixed`).
-/

import ArrayIR.Proofs.Frame

namespace ArrayIR

namespace Expr

/-- Whether the node is an adverb that is lowered. -/
def isAdverb : Expr → Bool
  | map .. | reduce .. | scan .. | allPairs .. => true
  | _ => false

/-- Whether the node is an operation on its children that does not look into the store. -/
def isPlainNode : Expr → Bool
  | const .. | prim .. | cast .. | proj .. | tuple .. => true
  | _ => false

/-- The value depends only on the names that `fixed` selects, and on what adverbs give if there may be
some. -/
inductive Held (adverbs : Prop) (fixed : VarName → Prop) : Expr → Prop
  | adverb {e : Expr} (h : adverbs) (he : e.isAdverb = true) : Held adverbs fixed e
  | name {x : VarName} {t : Ty} (h : fixed x) : Held adverbs fixed (.var x t)
  | node {e : Expr} (he : e.isPlainNode = true) (h : ∀ c ∈ e.children, Held adverbs fixed c) : Held adverbs fixed e

theorem Held.mono {adverbs : Prop} {fixed fixed' : VarName → Prop} {e : Expr} (h : Held adverbs fixed e)
    (hf : ∀ x, fixed x → fixed' x) : Held adverbs fixed' e := by
  induction h with
  | adverb h he => exact .adverb h he
  | name h => exact .name (hf _ h)
  | node he _ ih => exact .node he ih

theorem mem_reads {e : Expr} {x : VarName} (h : x ∈ e.reads) : (∃ t, e = .var x t) ∨ ∃ c ∈ e.children, x ∈ c.reads := by
  unfold reads at h
  rw [subterms_eq] at h
  obtain ⟨d, hd, hx⟩ := List.mem_filterMap.mp h
  rcases List.mem_cons.mp hd with rfl | hd
  · left
    cases d with
    | var y t =>
      cases hx
      exact ⟨t, rfl⟩
    | _ => cases hx
  · obtain ⟨c, hc, hd⟩ := List.mem_flatMap.mp hd
    exact .inr ⟨c, hc, List.mem_filterMap.mpr ⟨d, hd, hx⟩⟩

/-- Without adverbs, only fixed names are read. -/
theorem Held.reads {fixed : VarName → Prop} {e : Expr} (h : Held False fixed e) : ∀ x ∈ e.reads, fixed x := by
  induction h with
  | adverb h he => exact h.elim
  | name h =>
    intro x hx
    obtain rfl := List.mem_singleton.mp (reads_var _ _ ▸ hx)
    exact h
  | @node e he _ ih =>
    intro x hx
    rcases mem_reads hx with ⟨t, rfl⟩ | ⟨c, hc, hx⟩
    · cases he
    · exact ih c hc x hx

end Expr

open ArrayIR.Expr (Held)

/-! ## Evaluation that does not look into the store -/

/-- The computation gives one result, or one fault, and leaves the store alone. -/
def Storeless {α : Type} (x : Exec α) : Prop := (∃ a, x = pure a) ∨ ∃ e, x = throw e

namespace Storeless

variable {α β : Type}

theorem pure (a : α) : Storeless (pure a) := .inl ⟨a, rfl⟩

theorem fail (e : Error) : Storeless (fail e : Exec α) := .inr ⟨_, rfl⟩

theorem lift (x : Except Error α) : Storeless (liftM x : Exec α) := by
  cases x with
  | ok a => exact .inl ⟨a, rfl⟩
  | error e => exact .inr ⟨_, rfl⟩

theorem bind {x : Exec α} {f : α → Exec β} (h : Storeless x) (next : ∀ a, Storeless (f a)) : Storeless (x >>= f) := by
  rcases h with ⟨a, rfl⟩ | ⟨e, rfl⟩
  · rw [pure_bind]
    exact next a
  · exact .inr ⟨e, rfl⟩

end Storeless

namespace Eval

variable {call : Caller} {fixed : VarName → Prop} {L : Locals}

theorem exprs_storeless {es : List Expr} (h : ∀ e ∈ es, Storeless (expr call L e)) : Storeless (exprs call L es) := by
  induction es with
  | nil =>
    rw [exprs]
    exact .pure _
  | cons e es ih =>
    rw [exprs]
    exact (h e List.mem_cons_self).bind fun _ => (ih fun e he => h e (List.mem_cons_of_mem _ he)).bind fun _ => .pure _

theorem held_storeless {e : Expr} (h : Held False fixed e) : Storeless (expr call L e) := by
  induction h with
  | adverb h he => exact h.elim
  | @name x t h =>
    rw [expr]
    split
    · exact .pure _
    · exact .fail _
  | @node e he _ ih =>
    cases e with
    | const c t =>
      rw [expr]
      exact .pure _
    | prim op args t =>
      rw [expr]
      refine (exprs_storeless ih).bind fun vs => (Storeless.lift _).bind fun xs => ?_
      exact (Storeless.lift _).bind fun t => (Storeless.lift _).bind fun x => .pure _
    | cast x t =>
      rw [expr]
      refine (ih x List.mem_cons_self).bind fun v => (Storeless.lift _).bind fun s => ?_
      exact (Storeless.lift _).bind fun t => .pure _
    | proj x i t =>
      rw [expr]
      refine (ih x List.mem_cons_self).bind fun v => ?_
      cases v with
      | tuple items =>
        dsimp only
        split
        · exact .pure _
        · exact .fail _
      | _ => exact .fail _
    | tuple items t =>
      rw [expr]
      exact (exprs_storeless ih).bind fun _ => .pure _
    | _ => cases he

theorem condition_storeless {c : Expr} (h : Held False fixed c) : Storeless (condition call L c) := by
  refine (held_storeless h).bind fun v => ?_
  cases v with
  | scalar x => cases x <;> first | exact .pure _ | exact .fail _
  | _ => exact .fail _

/-! ## Loops whose test never changes -/

section

variable {test : Locals → Exec Bool} {body : Locals → Exec Flow} {again : Locals → Exec Locals} {P : Locals → Prop}

/-- A loop starts with the test, and is left at once if that fails. -/
theorem iterate_first {fuel : Nat} {L : Locals} {st st' : Store} {fl : Flow}
    (h : iterate test body again fuel L st = .ok fl st') :
    ∃ b st1, test L st = .ok b st1 ∧ (b = false → fl = .next L ∧ st' = st1) := by
  cases fuel with
  | zero =>
    rw [iterate.eq_def] at h
    obtain ⟨b, st1, hb, h⟩ := state_bind_ok h
    refine ⟨b, st1, hb, ?_⟩
    rintro rfl
    cases h
    exact ⟨rfl, rfl⟩
  | succ fuel =>
    rw [iterate.eq_def] at h
    obtain ⟨b, st1, hb, h⟩ := state_bind_ok h
    refine ⟨b, st1, hb, ?_⟩
    rintro rfl
    cases h
    exact ⟨rfl, rfl⟩

/-- If the test holds at every header, the loop is not left by it. -/
theorem iterate_holding (htest : ∀ L, P L → test L = pure true)
    (hbody : ∀ L st L' st', P L → body L st = .ok (.next L') st' → P L')
    (hagain : ∀ L st L' st', P L → again L st = .ok L' st' → P L') (fuel : Nat) {L L' : Locals} {st st' : Store}
    (hL : P L) : iterate test body again fuel L st ≠ .ok (.next L') st' := by
  induction fuel generalizing L st with
  | zero =>
    intro h
    rw [iterate.eq_def] at h
    obtain ⟨b, st1, hb, h⟩ := state_bind_ok h
    rw [htest L hL] at hb
    cases hb
    cases h
  | succ fuel ih =>
    intro h
    rw [iterate.eq_def] at h
    obtain ⟨b, st1, hb, h⟩ := state_bind_ok h
    rw [htest L hL] at hb
    cases hb
    obtain ⟨fl, st1, hfl, h⟩ := state_bind_ok h
    cases fl with
    | returned v => cases h
    | next L1 =>
      obtain ⟨L2, st2, hL2, h⟩ := state_bind_ok h
      exact ih (hagain _ _ _ _ (hbody _ _ _ _ hL hfl) hL2) h

end

/-- A `while` loop whose condition depends on fixed names only, and binds none of them, is left at its
first test if at all. -/
theorem while_fixed {fuel : Nat} {c : Expr} {body : Block} {m : Merge} (hc : Held False fixed c)
    (hfixed : ∀ x, fixed x → x ∉ (Stmt.whileLoop c body m).binds) {st st' : Store} {L' : Locals}
    (h : stmt call fuel (.whileLoop c body m) L st = .ok (.next L') st') :
    bindMerge call m Prod.fst L st = .ok L' st' ∧ condition call L' c st' = .ok false st' := by
  rw [stmt] at h
  obtain ⟨L1, st1, hmerge, h⟩ := state_bind_ok h
  have hkeys : ∀ x, fixed x → x ∉ m.keys := fun x hx hm => hfixed x hx (List.mem_append_left _ hm)
  have hbody : ∀ x, fixed x → x ∉ Stmt.blockBinds body := fun x hx hm => hfixed x hx (List.mem_append_right _ hm)
  have htest : ∀ K : Locals, (∀ x, fixed x → K.get? x = L1.get? x) → condition call K c = condition call L1 c := by
    intro K hK
    rw [condition, condition, expr_congr c fun x hx => hK x (hc.reads x hx)]
  obtain ⟨b, st2, hb, hleft⟩ := iterate_first h
  have hpure : condition call L1 c = pure b ∧ st2 = st1 := by
    rcases condition_storeless hc with ⟨b', hb'⟩ | ⟨e, he⟩
    · rw [hb'] at hb
      cases hb
      exact ⟨hb', rfl⟩
    · rw [he] at hb
      cases hb
  obtain ⟨hpure, rfl⟩ := hpure
  cases b with
  | false =>
    obtain ⟨hL, rfl⟩ := hleft rfl
    cases hL
    exact ⟨hmerge, hb⟩
  | true =>
    refine absurd h (iterate_holding (P := fun K => ∀ x, fixed x → K.get? x = L1.get? x) ?_ ?_ ?_ fuel fun _ _ => rfl)
    · intro K hK
      rw [htest K hK, hpure]
    · intro K s K' s' hK hrun x hx
      rw [← hK x hx]
      exact block_within hrun x (hbody x hx)
    · intro K s K' s' hK hrun x hx
      rw [← hK x hx]
      exact bindMerge_keeps hrun x (hkeys x hx)

end Eval

end ArrayIR
