/-
  ArrayIR.Proofs.Fresh — appended code binds names of its own.

  Between two moments of building, code is appended that binds names taken in the
  meantime (`Appended`). So whatever was named before keeps its value when the code is
  run, and two pieces of it never bind the same name.
-/

import ArrayIR.Pass.Inlining
import ArrayIR.Proofs.Building.Neat

namespace ArrayIR

/-- A name without a dot has no number. -/
theorem Builder.old_of_no_dot {x : VarName} (h : '.' ∉ x.toList) (b : Builder) : b.Old x := by
  rintro a i rfl
  simp [numbered] at h

/-- Code has been appended, which binds names that have been taken in the meantime only. -/
structure Appended (out : Block) (b b' : Builder) : Prop where
  block : b'.block = b.block ++ out
  next : b.session.nextName ≤ b'.session.nextName
  names : ∀ y ∈ Stmt.blockBinds out, ¬ b.Old y ∧ b'.Old y

namespace Appended

variable {out out' : Block} {b b1 b2 : Builder}

theorem refl (b : Builder) : Appended [] b b :=
    ⟨(List.append_nil _).symm, Nat.le_refl _, fun _ hy => absurd hy List.not_mem_nil⟩

theorem old (h : Appended out b b1) {y : VarName} (hy : b.Old y) : b1.Old y := hy.mono h.next

/-- What was named before is not bound. -/
theorem not_mem (h : Appended out b b1) {y : VarName} (hy : b.Old y) : y ∉ Stmt.blockBinds out :=
    fun hm => (h.names y hm).1 hy

theorem append (h : Appended out b b1) (h' : Appended out' b1 b2) : Appended (out ++ out') b b2 where
  block := by rw [h'.block, h.block, List.append_assoc]
  next := Nat.le_trans h.next h'.next
  names y hy := by
    rw [Stmt.blockBinds_append] at hy
    rcases List.mem_append.mp hy with hy | hy
    · exact ⟨(h.names y hy).1, h'.old (h.names y hy).2⟩
    · exact ⟨fun hold => (h'.names y hy).1 (h.old hold), (h'.names y hy).2⟩

theorem of_taken {N : List VarName} (h : Emits N out b b1) (ht : Taken N b.session.nextName b1.session.nextName)
    (hsub : ∀ y ∈ Stmt.blockBinds out, y ∈ N) : Appended out b b1 where
  block := h.block
  next := h.next
  names y hy := by
    obtain ⟨a, i, rfl, hi, hi'⟩ := ht.number y (hsub y hy)
    exact ⟨fun hold => Nat.not_lt.mpr hi (hold a i rfl), Builder.old_numbered hi' a⟩

theorem of_emit {s : Stmt} (hs : s.binds = []) (b : Builder) : Appended [s] b { b with block := b.block ++ [s] } :=
  ⟨rfl, Nat.le_refl _, fun y hy => by rw [Stmt.blockBinds_singleton, hs] at hy; cases hy⟩

/-- A statement is put around code that was built in a scope of its own. -/
theorem enclose (h : Appended out { b1 with block := [] } b2) (hb : b.block = b1.block)
    (hle : b.session.nextName ≤ b1.session.nextName)
    {s : Stmt} (hs : ∀ y ∈ s.binds, y ∈ Stmt.blockBinds out ∨ (¬ b.Old y ∧ b1.Old y)) :
    Appended [s] b { b2 with block := b1.block ++ [s] } where
  block := by rw [hb]
  next := Nat.le_trans hle h.next
  names y hy := by
    rw [Stmt.blockBinds_singleton] at hy
    rcases hs y hy with hy | ⟨hnew, hold⟩
    · exact ⟨fun hold => (h.names y hy).1 (hold.mono hle), (h.names y hy).2⟩
    · exact ⟨hnew, h.old hold⟩

end Appended

namespace Build

variable {b b' : Builder} {e : Expr} {name : String} {α : Type} {inner x : Build α} {a : α}

theorem temp_appended {v : Expr} (h : temp v name b = .ok e b') :
    ∃ y, e = .var y v.ty ∧ Appended [.assign (.var y v.ty) v] b b' ∧ ¬ b.Old y ∧ b'.Old y := by
  obtain ⟨y, he, hemits, htaken⟩ := temp_ok h
  have happ : Appended [.assign (.var y v.ty) v] b b' := .of_taken hemits htaken fun _ => id
  exact ⟨y, he, happ, happ.names y List.mem_cons_self⟩

theorem nested_of_ok {b1 : Builder} (h : inner { b with block := [] } = .ok a b1) :
    nested inner b = .ok (b1.block, a) { b1 with block := b.block } := by
  rw [nested, h]

theorem nested_ok {p : Block × α} (h : nested inner b = .ok p b') :
    ∃ b1, inner { b with block := [] } = .ok p.2 b1 ∧ p.1 = b1.block ∧ b' = { b1 with block := b.block } := by
  unfold nested at h
  split at h
  · rename_i a b1 hinner
    cases h
    exact ⟨b1, hinner, rfl, rfl⟩
  · cases h

theorem temp_fresh (v : Expr) (name : String) (b : Builder) :
    ∃ y b', temp v name b = .ok (.var y v.ty) b' ∧ Appended [.assign (.var y v.ty) v] b b' ∧ ¬ b.Old y ∧ b'.Old y := by
  have h : temp v name b = .ok _ _ := rfl
  obtain ⟨y, he, happ, hy⟩ := temp_appended h
  exact ⟨y, _, congrArg (fun e => EStateM.Result.ok e _) he, happ, hy⟩

theorem freshVar_fresh {t : Ty} (h : freshVar t name b = .ok e b') :
    ∃ y, e = .var y t ∧ Appended [] b b' ∧ ¬ b.Old y ∧ b'.Old y := by
  cases h
  refine ⟨numbered name b.session.nextName, rfl, ⟨(List.append_nil _).symm, Nat.le_succ _,
    fun _ hy => absurd hy List.not_mem_nil⟩, fun hold => ?_, Builder.old_numbered (Nat.lt_succ_self _) name⟩
  exact Nat.lt_irrefl _ (hold _ _ rfl)

/-- The extent along an axis, in a name of its own. -/
theorem shape_fresh {a : Expr} {elt : ScalarTy} {rank axis : Nat} (ha : a.ty = .array elt rank)
    (h : axis < rank) (b : Builder) :
    ∃ s n b', shape a (some axis) b = .ok (.var n .i64) b' ∧
      Appended [.assign (.var s (Ty.extents rank)) (.attr a .shape (Ty.extents rank)),
      .assign (.var n .i64) (.proj (.var s (Ty.extents rank)) axis .i64)] b b' := by
  obtain ⟨s, b1, hs, hs1, -⟩ := temp_fresh (.attr a .shape (Ty.extents rank)) Field.shape.name b
  obtain ⟨n, b2, hn, hn2, -⟩ := temp_fresh (.proj (.var s (Ty.extents rank)) axis .i64) "elt" b1
  refine ⟨s, n, b2, ?_, hs1.append hn2⟩
  have hattr : attr a .shape = temp (.attr a .shape (Ty.extents rank)) Field.shape.name := by
    unfold attr
    rw [ha]
  have hproj : proj (.var s (Ty.extents rank)) axis = temp (.proj (.var s (Ty.extents rank)) axis .i64) "elt" := by
    have hitem : (List.replicate rank Ty.i64)[axis]? = some .i64 := by rw [List.getElem?_replicate, if_pos h]
    unfold proj
    simp only [Expr.ty, Ty.extents, Ty.items?, hitem]
  unfold shape attrAlong
  rw [hattr, state_bind_of_ok hs]
  show (if a.ty.rank ≤ axis then _ else proj (.var s (Ty.extents rank)) axis : Build Expr) b1 = _
  have hrank : ¬ a.ty.rank ≤ axis := by
    rw [ha]
    exact Nat.not_le.mpr h
  rw [if_neg hrank, hproj]
  exact hn

/-- The two names of a loop's counter. -/
theorem loopCounter_fresh (name : String) (start : Expr) (b : Builder) :
    ∃ j after b', loopCounter name start b =
        .ok (.var j start.ty, .var after start.ty, NameMap.empty.insert j (start, .var after start.ty)) b' ∧
      Appended [] b b' ∧ (¬ b.Old j ∧ b'.Old j) ∧ (¬ b.Old after ∧ b'.Old after) ∧ j ≠ after := by
  refine ⟨numbered name b.session.nextName, numbered (name ++ "_after") (b.session.nextName + 1), _, rfl,
    ⟨(List.append_nil _).symm, Nat.le_add_right _ 2, fun _ hy => absurd hy List.not_mem_nil⟩, ⟨fun h => ?_, ?_⟩,
      ⟨fun h => ?_, ?_⟩, fun h => ?_⟩
  · exact Nat.lt_irrefl _ (h _ _ rfl)
  · exact Builder.old_numbered (Nat.lt_add_of_pos_right Nat.two_pos) name
  · exact Nat.not_lt.mpr (Nat.le_succ _) (h _ _ rfl)
  · exact Builder.old_numbered (Nat.lt_succ_self _) _
  · exact Nat.succ_ne_self _ (numbered_inj h).symm

/-! ## Computations -/

/-- Whatever the computation appends binds names of its own. -/
def Fresh {α : Type} (x : Build α) : Prop := ∀ b a b', x b = .ok a b' → ∃ out, Appended out b b'

theorem Fresh.of_tidy (h : Tidy x) : Fresh x := by
  intro b a b' hx
  have hb := h b
  rw [hx] at hb
  obtain ⟨N, out, hwrites⟩ := hb
  exact ⟨out, .of_taken hwrites.toEmits hwrites.taken fun y hy => (hwrites.bound y hy).resolve_left List.not_mem_nil⟩

theorem next_of_tidy (h : Tidy x) (hx : x b = .ok a b') : b.session.nextName ≤ b'.session.nextName :=
  (Fresh.of_tidy h b a b' hx).choose_spec.next

theorem Fresh.bind {β : Type} {f : α → Build β} (h : Fresh x) (hf : ∀ a, Fresh (f a)) : Fresh (x >>= f) := by
  intro b c b' hx
  obtain ⟨a, b1, hx, hf'⟩ := state_bind_ok hx
  obtain ⟨out, happ⟩ := h b a b1 hx
  obtain ⟨out', happ'⟩ := hf a b1 c b' hf'
  exact ⟨out ++ out', happ.append happ'⟩

theorem bindParams_tidy (ps : List ((VarName × Ty) × Expr)) (r : Renaming) : Tidy (bindParams ps r) := by
  induction ps generalizing r with
  | nil => exact Tidy.pure r
  | cons p ps ih =>
    obtain ⟨⟨x, t⟩, e⟩ := p
    have hshared : ∀ e name, Tidy (shared e name) := by
      intro e name
      cases e
      case var | const | fnRef => exact Tidy.pure _
      all_goals exact Build.temp_tidy _ name
    have hrest : ∀ e, Tidy (shared e x >>= fun e => bindParams ps (r.bind x e)) :=
      fun e => Tidy.bind (hshared e x) fun e => ih _
    rw [bindParams]
    split
    · exact Tidy.bind (Tidy.pure e) hrest
    · exact Tidy.bind (Tidy.coerce e t _) hrest

/-- Inlining binds the names of a copy. -/
theorem inline_fresh (f : Func) (args : List Expr) (output : Option Expr) : Fresh (inline f args output) := by
  unfold inline
  split
  · exact .of_tidy (Tidy.fail _)
  · refine .bind (.of_tidy (Tidy.lift _)) fun parts =>
      .bind (.of_tidy (bindParams_tidy _ _)) fun r => .bind ?_ fun p => ?_
    · rintro b ⟨value, r'⟩ b' h
      obtain ⟨_, r1, b1, hstmts, hvalue⟩ := pass_bind_ok h
      obtain ⟨-, -, rfl⟩ := Renaming.expr_ok hvalue
      obtain ⟨out, -, hnew⟩ := Renaming.stmts_copy hstmts
      exact ⟨out, .of_taken hnew.toEmits hnew.taken fun _ => id⟩
    · obtain ⟨value, r'⟩ := p
      cases output with
      | none =>
        cases value
        case var | const => exact .of_tidy (Tidy.pure _)
        all_goals exact .of_tidy (Build.temp_tidy _ _)
      | some region => exact .of_tidy (Tidy.bind (Tidy.setIndex _ _ _) fun _ => Tidy.pure _)

end Build

end ArrayIR
