/-
  ArrayIR.Proofs.Inlining.Copies — what copying a block comes to.

  Every name that a copied block binds has a new name, of the type declared for the
  old one, and the copy does what the block does, whatever the names in scope stand
  for (`Renaming.copy_simulates_block`). The merges are evaluated in the order of the new
  names, so they must not depend on it: `Renaming.copy_reads_early` has one that does.
-/

import ArrayIR.Proofs.Fresh
import ArrayIR.Proofs.Inlining.Meaning

namespace ArrayIR

namespace Renaming

open Eval Inlining

/-- The block reads the names `V` and those it binds, it binds no name twice, and the names `V` stand for
constants, or for names that the builder will not give out again. -/
structure Copyable (b : Builder) (V : List VarName) (r : Renaming) (ss : Block) : Prop where
  wellScoped : Stmt.blockWellScoped ss V = true
  once : (Stmt.blockBinds ss).Nodup
  apart : ∀ x ∈ Stmt.blockBinds ss, x ∉ V
  atomic : r.Atomic
  given : ∀ x ∈ V, ∀ y, r.image? x = some y → b.Old y

/-- Names that are given out now are distinct from all those in use. -/
theorem Copyable.hygiene {b : Builder} {n : Nat} {V ys : List VarName} {r : Renaming} {ss : Block}
    (h : Copyable b V r ss) (hys : Taken ys b.session.nextName n) : Hygiene V r (Stmt.blockBinds ss) ys where
  source := h.apart
  sourceNodup := h.once
  target y hy x hx himage := hys.not_mem_of_older (h.given x hx y himage) hy
  targetNodup := hys.nodup
  atomic := h.atomic

/-- The names that a copy binds are new, each stands for one name that the block binds, and has its type. From
locals in which what the names in scope stand for has their values, the block and its copy both fail, both
return alike values, or both go on with locals that correspond again, if the merges of the block may be evaluated
in any order. -/
theorem copy_simulates_block {V : List VarName} {r r' : Renaming} {ss copy : Block} {b b' : Builder}
    (hss : Copyable b V r ss) (h : pass.block ss r b = .ok (copy, r') b') :
    Taken (Stmt.blockBinds copy) b.session.nextName b'.session.nextName ∧
    ((Stmt.blockBinds ss).map r'.image?).Perm ((Stmt.blockBinds copy).map some) ∧
    (∀ x ∈ Stmt.blockBinds ss, ∃ y t, r'.image? x = some y ∧ r.source.get? x = some t ∧ b'.env.get? y = some t) ∧
    b'.block = b.block ∧
    ∀ (s : Session) (n fuel : Nat), Stmt.blockCommutes (s.call n) ss →
      Sim .strict (.names .strict (· ∈ V) r) (fun _ _ => True) (block (s.call n) fuel ss) (block (s.call n) fuel copy)
        (.scope .strict r' (Stmt.blockAfter ss V)) := by
  obtain ⟨hcopy, hnew⟩ := block_copy h
  refine ⟨hnew.taken, hnew.images hss.once, fun x hx => ?_, ?_, fun s n fuel hcommutes => ?_⟩
  · obtain ⟨y, -, t, hsource, hy, henv⟩ := hnew.given x hx
    exact ⟨y, t, by rw [image?, hy]; rfl, hsource, henv⟩
  · rw [hnew.block, List.append_nil]
  · exact copy_block_sim (Session.call_inStep (Session.strict_admits s) n) hcopy (hss.hygiene hnew.taken) hss.wellScoped
      (Likeness.strict_admitsBlock ss) hcommutes

/-- Two arrays and a constant for the parameters of `pick`. -/
def pickNames : Renaming where
  source := pick.env
  renames := .ofList [("x", .var "p" (.array .i64 1)), ("y", .var "q" (.array .i64 1)), ("c", .bool true)]

theorem pick_copyable : Copyable pickBuilder pick.params pickNames pick.body where
  wellScoped := by decide
  once := by decide
  apart := by decide
  atomic x e he := by
    simp only [pickNames, NameMap.ofList, NameMap.insertAll, List.foldl, NameMap.get?_insert, NameMap.get?_empty] at he
    split_ifs at he <;> cases he <;> rfl
  given x hx y hy := by
    have hdots : ∀ x ∈ pick.params, ∀ y ∈ (pickNames.image? x).toList, '.' ∉ y.toList := by decide
    exact Builder.old_of_no_dot (hdots x hx y (by simp [hy])) pickBuilder

/-- A copy of `pick` does with two arrays what `pick` does. -/
theorem copied_pick : ∃ copy r' b', pass.block pick.body pickNames pickBuilder = .ok (copy, r') b' ∧
    Sim .strict (.names .strict (· ∈ pick.params) pickNames) (fun _ _ => True)
      (block (pickBuilder.session.call 1) 1 pick.body) (block (pickBuilder.session.call 1) 1 copy)
      (.scope .strict r' (Stmt.blockAfter pick.body pick.params)) := by
  have hcommutes : Stmt.blockCommutes (pickBuilder.session.call 1) pick.body :=
    ⟨⟨.inl (by decide), trivial, trivial⟩, trivial, trivial⟩
  obtain ⟨⟨copy, r'⟩, b', h⟩ := exists_of_succeeds
    (show succeeds (pass.block pick.body pickNames pickBuilder) = true by decide +kernel)
  exact ⟨copy, r', b', h, (copy_simulates_block pick_copyable h).2.2.2.2 _ 1 1 hcommutes⟩

/-- What a body returns on an array of one zero and the condition true. -/
def bumpedBy? (ss : Block) : Option Value :=
  bumpValue? (body (bumpBuilder.session.call 2) 2 { readAfterBump with body := ss }
    [.array ⟨.i64, 0, [1], [1], 0⟩, .scalar (.bool true)])

/-- What its copy returns there. -/
def bumpedByCopy? (ss : Block) : Option Value :=
  match pass.block ss { source := readAfterBump.env } bumpBuilder with
  | .ok (copy, _) _ => bumpedBy? copy
  | .error _ _ => .none

/-- The copy of `m-` comes ahead of that of `m`, so the cell is read before it has been counted up. -/
theorem copy_reads_early : bumpedBy? readAfterBump.body = some (.int 1) ∧
    bumpedByCopy? readAfterBump.body = some (.int 0) := by
  constructor
  · with_unfolding_all rfl
  · rfl

end Renaming

end ArrayIR
