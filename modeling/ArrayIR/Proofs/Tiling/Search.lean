/-
  ArrayIR.Proofs.Tiling.Search — the search for tiled adverbs decides reachability.

  Functions refer to one another by what they call and by the types of their
  expressions, however deeply nested (`Func.Refers`). Following references leads from a
  name to others, taken or not, and possibly in circles (`Session.Leads`).

  What the search says when it ends is what following references leads to
  (`Session.reachesTiled_decides`).
-/

import ArrayIR.Proofs.Tiling.Count

namespace ArrayIR

/-! ## Expressions at any depth -/

/-- The one expression is the other, or is nested in it. -/
inductive Expr.Within (d : Expr) : Expr → Prop
  | self : Within d d
  | child {c e : Expr} : c ∈ e.children → Within d c → Within d e

theorem Expr.mem_subterms_iff {d e : Expr} : d ∈ e.subterms ↔ d.Within e := by
  constructor
  · induction e using Expr.induction with
    | step e ih =>
      intro h
      rw [subterms_eq] at h
      rcases List.mem_cons.mp h with rfl | h
      · exact .self
      · obtain ⟨c, hc, hd⟩ := List.mem_flatMap.mp h
        exact .child hc (ih c hc hd)
  · intro h
    induction h with
    | self => exact d.self_mem_subterms
    | child hc _ ih => exact subterms_of_child hc ih

namespace Stmt

/-- The expression occurs in the statement: in one of its own, or in a statement of one of its blocks. -/
inductive Has : Stmt → Expr → Prop
  | own {s : Stmt} {e d : Expr} : e ∈ s.exprs → d.Within e → Has s d
  | inner {s t : Stmt} {ss : Block} {d : Expr} : ss ∈ s.blocks → t ∈ ss → Has t d → Has s d

variable {d : Expr}

theorem mem_blockSubterms {ss : List Stmt} : d ∈ blockSubterms ss ↔ ∃ s ∈ ss, d ∈ s.subterms := by
  induction ss with
  | nil => simp [blockSubterms]
  | cons s ss ih => simp [blockSubterms, ih]

/-- The expressions of a statement are those of its own and those of its blocks. -/
theorem mem_subterms {s : Stmt} :
    d ∈ s.subterms ↔ (∃ e ∈ s.exprs, d ∈ e.subterms) ∨ ∃ ss ∈ s.blocks, d ∈ blockSubterms ss := by
  cases s <;> simp [subterms, exprs, blocks, or_assoc]

theorem has_of_blocks {s : Stmt} (h : d ∈ s.subterms)
    (hblocks : ∀ ss ∈ s.blocks, d ∈ blockSubterms ss → ∃ t ∈ ss, t.Has d) : s.Has d := by
  obtain ⟨e, he, hd⟩ | ⟨ss, hss, hd⟩ := mem_subterms.mp h
  · exact .own he (Expr.mem_subterms_iff.mp hd)
  · obtain ⟨t, ht, hd⟩ := hblocks ss hss hd
    exact .inner hss ht hd

mutual

theorem has_of_mem_subterms : ∀ {s : Stmt}, d ∈ s.subterms → s.Has d
  | assign _ _, h | ret _, h => has_of_blocks h fun _ hss => absurd hss List.not_mem_nil
  | ite _ _ _ _, h =>
    has_of_blocks h
      (List.forall_mem_cons.mpr ⟨has_of_mem_blockSubterms, List.forall_mem_singleton.mpr has_of_mem_blockSubterms⟩)
  | whileLoop _ _ _, h | forLoop _ _ _, h => has_of_blocks h (List.forall_mem_singleton.mpr has_of_mem_blockSubterms)

theorem has_of_mem_blockSubterms : ∀ {ss : List Stmt}, d ∈ blockSubterms ss → ∃ s ∈ ss, s.Has d
  | [], h => absurd h List.not_mem_nil
  | s :: ss, h => by
    obtain h | h := List.mem_append.mp h
    · exact ⟨s, List.mem_cons_self, has_of_mem_subterms h⟩
    · obtain ⟨t, ht, hd⟩ := has_of_mem_blockSubterms h
      exact ⟨t, List.mem_cons_of_mem _ ht, hd⟩

end

theorem mem_subterms_iff {s : Stmt} : d ∈ s.subterms ↔ s.Has d := by
  refine ⟨has_of_mem_subterms, fun h => ?_⟩
  induction h with
  | own he hd => exact mem_subterms.mpr (.inl ⟨_, he, Expr.mem_subterms_iff.mpr hd⟩)
  | inner hss ht _ ih => exact mem_subterms.mpr (.inr ⟨_, hss, mem_blockSubterms.mpr ⟨_, ht, ih⟩⟩)

end Stmt

namespace Func

/-- The expression occurs in the function's body. -/
def Has (f : Func) (e : Expr) : Prop := ∃ s ∈ f.body, s.Has e

/-- The function calls `fn`, or has an expression whose type names it. -/
inductive Refers (f : Func) : FnName → Prop
  | call {fn : FnName} {args : List Expr} {t : Ty} : f.Has (.call fn args t) → Refers f fn
  | type {e : Expr} {fn : FnName} {captured : List Ty} : f.Has e → e.ty.callee? = some (fn, captured) → Refers f fn

variable {f : Func} {e : Expr} {fn : FnName}

theorem mem_subterms_iff : e ∈ f.subterms ↔ f.Has e := by
  simp only [subterms, Stmt.mem_blockSubterms, Stmt.mem_subterms_iff, Has]

theorem hasTiled_iff : f.hasTiled = true ↔ ∃ e, f.Has e ∧ e.isTiled = true := by
  simp only [hasTiled, List.any_eq_true, mem_subterms_iff]

theorem refers_of_mem (he : f.Has e) (hfn : fn ∈ e.refs) : f.Refers fn := by
  unfold Expr.refs at hfn
  rcases List.mem_append.mp hfn with hfn | hfn
  · split at hfn
    · cases List.mem_singleton.mp hfn
      exact .call he
    · exact absurd hfn List.not_mem_nil
  · obtain ⟨⟨_, captured⟩, hcallee, rfl⟩ := Option.map_eq_some_iff.mp (Option.mem_toList.mp hfn)
    exact .type he hcallee

theorem mem_refs_iff : fn ∈ f.refs ↔ f.Refers fn := by
  rw [Session.mem_refs]
  constructor
  · rintro ⟨e, he, hfn⟩
    exact refers_of_mem (mem_subterms_iff.mp he) hfn
  · rintro (he | ⟨he, hcallee⟩)
    · exact ⟨_, mem_subterms_iff.mpr he, List.mem_append_left _ List.mem_cons_self⟩
    · refine ⟨_, mem_subterms_iff.mpr he, List.mem_append_right _ ?_⟩
      rw [hcallee]
      exact List.mem_cons_self

theorem has_child {c : Expr} (he : f.Has e) (hc : c ∈ e.children) : f.Has c :=
  mem_subterms_iff.mp (Stmt.mem_blockSubterms_of_child hc (mem_subterms_iff.mpr he))

/-- What is called or applied to tiles is referred to, by the call or by the type of what is applied. -/
theorem refers_of_applied (h : fn ∈ f.applied) : f.Refers fn := by
  obtain ⟨e, he, hfn⟩ := List.mem_flatMap.mp (f.applied_eq ▸ h)
  have he := mem_subterms_iff.mp he
  have hchild : ∀ c ∈ e.children, fn ∈ (c.ty.callee?.map (·.1)).toList → f.Refers fn := fun c hc hfn =>
    refers_of_mem (has_child he hc) (List.mem_append_right _ hfn)
  cases e with
  | call => exact refers_of_mem he (List.mem_append_left _ hfn)
  | tiledMap g => exact hchild g List.mem_cons_self hfn
  | tiledReduce g c =>
    rcases List.mem_append.mp hfn with hfn | hfn
    · exact hchild g List.mem_cons_self hfn
    · exact hchild c (List.mem_cons_of_mem _ List.mem_cons_self) hfn
  | _ => exact absurd hfn List.not_mem_nil

end Func

namespace Session

variable {s : Session} {f : Func} {start fn r : FnName} {visited pending : List FnName} {answer : Except Error Bool}

/-! ## Following references -/

/-- Following references leads from the one name to the other. -/
inductive Leads (s : Session) (start : FnName) : FnName → Prop
  | start : Leads s start start
  | refer {fn r : FnName} {f : Func} : Leads s start fn → s.find? fn = some f → f.Refers r → Leads s start r

/-- Following references leads to a function with a tiled adverb. -/
def LeadsToTiled (s : Session) (start : FnName) : Prop :=
  ∃ fn f e, s.Leads start fn ∧ s.find? fn = some f ∧ f.Has e ∧ e.isTiled = true

theorem Leads.trans (h : s.Leads start fn) (h' : s.Leads fn r) : s.Leads start r := by
  induction h' with
  | start => exact h
  | refer _ hf hr ih => exact ih.refer hf hr

theorem LeadsToTiled.of_leads (h : s.Leads start fn) (hfn : s.LeadsToTiled fn) : s.LeadsToTiled start := by
  obtain ⟨r, k, e, hr, hk, he⟩ := hfn
  exact ⟨r, k, e, h.trans hr, hk, he⟩

/-- Names that refer to one another only are not left. -/
theorem Untiled.mem_of_leads {names : List FnName} (h : s.Untiled names) (hstart : start ∈ names)
    (hfn : s.Leads start fn) :
    fn ∈ names := by
  induction hfn with
  | start => exact hstart
  | refer _ hf hr ih =>
    obtain ⟨k, hk, -, hrefs⟩ := h _ ih
    cases hk.symm.trans hf
    exact hrefs _ (Func.mem_refs_iff.mpr hr)

/-! ## What the answers say -/

/-- What is found or missing when the search ends early is led to, if all that is pending is. -/
theorem Searches.early (h : s.Searches visited pending answer) (hpending : ∀ fn ∈ pending, s.Leads start fn) :
    (answer = .ok true → s.LeadsToTiled start) ∧
    ∀ e, answer = .error e → ∃ fn, s.Leads start fn ∧ s.find? fn = none ∧ e = .unknownFunction fn := by
  induction h with
  | done =>
    refine ⟨fun h => ?_, fun e h => ?_⟩ <;> cases h
  | skip _ _ ih => exact ih (List.forall_mem_cons.mp hpending).2
  | @unknown _ _ fn _ hnone =>
    refine ⟨fun h => ?_, fun e h => ?_⟩ <;> cases h
    exact ⟨fn, hpending fn List.mem_cons_self, hnone, rfl⟩
  | @found _ _ fn f _ hf htiled =>
    obtain ⟨e, he, htiled⟩ := Func.hasTiled_iff.mp htiled
    refine ⟨fun _ => ⟨fn, f, e, hpending fn List.mem_cons_self, hf, he, htiled⟩, fun e h => ?_⟩
    cases h
  | @expand _ _ fn f _ _ hf _ _ ih =>
    refine ih fun r hr => ?_
    rcases List.mem_append.mp hr with hr | hr
    · exact (hpending fn List.mem_cons_self).refer hf (Func.mem_refs_iff.mp (List.mem_reverse.mp hr))
    · exact hpending r (List.mem_cons_of_mem _ hr)

theorem leadsToTiled_of_reachesTiled (h : s.reachesTiled f = .ok true) : s.LeadsToTiled f.name :=
  ((s.searches_reachesTiled f).early fun _ hfn => List.mem_singleton.mp hfn ▸ .start).1 h

theorem unknown_of_reachesTiled {e : Error} (h : s.reachesTiled f = .error e) :
    ∃ fn, s.Leads f.name fn ∧ s.find? fn = none ∧ e = .unknownFunction fn :=
  ((s.searches_reachesTiled f).early fun _ hfn => List.mem_singleton.mp hfn ▸ .start).2 e h

theorem plain_of_reachesTiled (h : s.reachesTiled f = .ok false) (hfn : s.Leads f.name fn) :
    ∃ k, s.find? fn = some k ∧ ∀ e, k.Has e → e.isTiled = false := by
  obtain ⟨names, hnames, hf⟩ := reachesTiled_false_iff.mp h
  obtain ⟨k, hk, hplain, -⟩ := hnames fn (hnames.mem_of_leads hf hfn)
  refine ⟨k, hk, fun e he => Bool.eq_false_iff.mpr fun htiled => ?_⟩
  cases hplain.symm.trans (Func.hasTiled_iff.mpr ⟨e, he, htiled⟩)

theorem not_leadsToTiled (h : s.reachesTiled f = .ok false) : ¬ s.LeadsToTiled f.name := by
  rintro ⟨fn, k, e, hfn, hk, he, htiled⟩
  obtain ⟨k', hk', hplain⟩ := plain_of_reachesTiled h hfn
  cases hk.symm.trans hk'
  cases htiled.symm.trans (hplain e he)

/-- The search for tiled adverbs ends, with one answer, whatever the functions refer to. "Yes" means that a function
with a tiled adverb is reached, "no" that only functions without one are, under names that are all taken, and it fails
only on a name that is reached and not taken. -/
theorem reachesTiled_decides (s : Session) (f : Func) :
    (∀ answer, s.Searches [] [f.name] answer ↔ answer = s.reachesTiled f) ∧
    (s.reachesTiled f = .ok true → ∃ fn k e, s.Leads f.name fn ∧ s.find? fn = some k ∧ k.Has e ∧ e.isTiled = true) ∧
    (s.reachesTiled f = .ok false → ∀ fn, s.Leads f.name fn → ∃ k, s.find? fn = some k ∧
      ∀ e, k.Has e → e.isTiled = false) ∧
    (∀ e, s.reachesTiled f = .error e → ∃ fn, s.Leads f.name fn ∧ s.find? fn = none ∧ e = .unknownFunction fn) := by
  refine ⟨fun answer => ⟨fun h => h.unique (s.searches_reachesTiled f), ?_⟩, leadsToTiled_of_reachesTiled,
    fun h fn hfn => plain_of_reachesTiled h hfn, fun e h => unknown_of_reachesTiled h⟩
  rintro rfl
  exact s.searches_reachesTiled f

end Session

end ArrayIR
