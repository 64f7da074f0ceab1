/-
  ArrayIR.Proofs.Reach — what a function reaches in a session that grows.

  Functions refer to others by name, so what one of them reaches depends on the
  session. In a larger session it reaches at least as much, and exactly as much if
  all the names it comes upon were taken (`Session.Secure.mono`).

  The search for tiled adverbs keeps a list of names to look at and one of names it has
  looked at, and nothing else bounds it (`Session.Searches`). It ends all the same: a
  name that it expands is taken and was not expanded before, so there are no more
  expansions than functions, and a budget of that many never runs out
  (`Session.searches_searchTiled`). It answers "no" exactly if the names it comes upon
  are all taken by functions without a tiled adverb (`Session.reachesTiled_false_iff`).
  So its answers, and the numbers of tile sizes counted by means of it, stay the same in
  a larger session.
-/

import ArrayIR.Proofs.Publish
import ArrayIR.Proofs.Renamed
import ArrayIR.Proofs.Success
import ArrayIR.Tiling.Reach
import Mathlib.Data.List.Perm.Subperm
import Mathlib.Logic.Relation

namespace ArrayIR

/-! ## The nodes of a function -/

theorem Expr.mem_subterms_of_child {e d c : Expr} (hd : d ∈ e.subterms) (hc : c ∈ d.children) : c ∈ e.subterms := by
  induction e using Expr.induction with
  | step e ih =>
    rw [subterms_eq] at hd
    rcases List.mem_cons.mp hd with rfl | hd
    · exact subterms_of_child hc c.self_mem_subterms
    · obtain ⟨b, hb, hd⟩ := List.mem_flatMap.mp hd
      exact subterms_of_child hb (ih b hb hd)

namespace Stmt

mutual

theorem mem_subterms_of_child {d c : Expr} (hc : c ∈ d.children) : ∀ {s : Stmt}, d ∈ s.subterms → c ∈ s.subterms
  | assign target value, h => by
    simp only [subterms, List.mem_append] at h ⊢
    exact h.imp (Expr.mem_subterms_of_child · hc) (Expr.mem_subterms_of_child · hc)
  | ret value, h => Expr.mem_subterms_of_child h hc
  | ite cond yes no merge, h => by
    simp only [subterms, List.mem_append, List.mem_flatMap] at h ⊢
    refine h.imp (.imp (.imp (Expr.mem_subterms_of_child · hc) ?_) (mem_blockSubterms_of_child hc))
      (mem_blockSubterms_of_child hc)
    exact fun ⟨e, he, hd⟩ => ⟨e, he, Expr.mem_subterms_of_child hd hc⟩
  | whileLoop cond body merge, h => by
    simp only [subterms, List.mem_append, List.mem_flatMap] at h ⊢
    refine h.imp (.imp (Expr.mem_subterms_of_child · hc) ?_) (mem_blockSubterms_of_child hc)
    exact fun ⟨e, he, hd⟩ => ⟨e, he, Expr.mem_subterms_of_child hd hc⟩
  | forLoop count body merge, h => by
    simp only [subterms, List.mem_append, List.mem_flatMap] at h ⊢
    refine h.imp (.imp (.imp (.imp (Expr.mem_subterms_of_child · hc) (Expr.mem_subterms_of_child · hc))
      (Expr.mem_subterms_of_child · hc)) ?_) (mem_blockSubterms_of_child hc)
    exact fun ⟨e, he, hd⟩ => ⟨e, he, Expr.mem_subterms_of_child hd hc⟩

theorem mem_blockSubterms_of_child {d c : Expr} (hc : c ∈ d.children) : ∀ {ss : List Stmt}, d ∈ blockSubterms ss →
    c ∈ blockSubterms ss
  | [], h => absurd h List.not_mem_nil
  | s :: ss, h => by
    simp only [blockSubterms, List.mem_append] at h ⊢
    exact h.imp (mem_subterms_of_child hc) (mem_blockSubterms_of_child hc)

end

end Stmt

namespace Session

variable {s t u : Session} {f g k : Func} {fn : FnName}

theorem name_of_find? (h : s.find? fn = some f) : f.name = fn := by simpa using List.find?_some h

theorem find?_name (h : s.find? fn = some f) : s.find? f.name = some f := by rwa [name_of_find? h]

theorem eq_of_register (h : s.register g = .ok t) : t = { s with functions := g :: s.functions } := by
  unfold register at h
  split at h
  · cases h
  · cases h
    rfl

/-- Registering makes nothing but the one function new. -/
theorem eq_of_new (h : s.register g = .ok t) (hs : s.find? fn = none) (ht : t.find? fn = some k) : k = g := by
  rw [eq_of_register h, find?, List.find?_cons] at ht
  split at ht
  · exact (Option.some.inj ht).symm
  · exact absurd (ht.symm.trans hs) (by simp)

/-! ## Growing sessions -/

/-- The second session has the functions of the first. -/
structure Grows (s t : Session) : Prop where
  find : ∀ {fn f}, s.find? fn = some f → t.find? fn = some f
  size : s.numFunctions ≤ t.numFunctions

namespace Grows

theorem refl (s : Session) : Grows s s := ⟨id, Nat.le_refl _⟩

theorem trans (h : Grows s t) (h' : Grows t u) : Grows s u :=
    ⟨fun hf => h'.find (h.find hf), Nat.le_trans h.size h'.size⟩

/-- Only the functions count. -/
theorem of_eq (h : t.functions = s.functions) : Grows s t :=
  ⟨fun hf => by rwa [find?, h], by simp [numFunctions, h]⟩

theorem fresh (s : Session) (name : String) : Grows s (s.fresh name).2 := of_eq rfl

theorem register (h : s.register g = .ok t) : Grows s t :=
  ⟨(register_ok h).2, by rw [eq_of_register h]; exact Nat.le_succ _⟩

end Grows

/-- What is new in the second session is as `P` says there. -/
def Gains (P : Session → Func → Prop) (s t : Session) : Prop := ∀ fn k, s.find? fn = none → t.find? fn = some k → P t k

section Gains

variable {P : Session → Func → Prop}

theorem Gains.trans (hP : ∀ {k}, P t k → P u k) (h : Gains P s t) (h' : Gains P t u)
    (htu : Grows t u) : Gains P s u := by
  intro fn g hnone hg
  cases ht : t.find? fn with
  | none => exact h' fn g ht hg
  | some k =>
    cases (htu.find ht).symm.trans hg
    exact hP (h fn _ hnone ht)

/-- Only the name counter has changed. -/
theorem Gains.of_eq (h : t.functions = s.functions) : Gains P s t := by
  intro fn g hnone hg
  rw [find?, h] at hg
  exact absurd (hg.symm.trans hnone) (by simp)

theorem Gains.register (h : s.register g = .ok t) (hg : P t g) : Gains P s t :=
  fun _ _ hnone hk => eq_of_new h hnone hk ▸ hg

end Gains

/-! ## Reaching functions -/

section Reaching

variable {L : Expr → List FnName} {p : Expr → Prop}

/-- A node of the one function links to the other, where `L` lists the names a node links to. -/
def Links (s : Session) (L : Expr → List FnName) (f g : Func) : Prop :=
    ∃ e ∈ f.subterms, ∃ fn ∈ L e, s.find? fn = some g

/-- Following links leads from the one function to the other. -/
def Reaches (s : Session) (L : Expr → List FnName) : Func → Func → Prop := Relation.ReflTransGen (s.Links L)

/-- All nodes of all functions reached are as `p` says. -/
def Everywhere (s : Session) (L : Expr → List FnName) (p : Expr → Prop) (f : Func) : Prop :=
  ∀ k, s.Reaches L f k → ∀ e ∈ k.subterms, p e

/-- All nodes of all functions reached are as `p` says, and link to names that are taken. -/
def Secure (s : Session) (L : Expr → List FnName) (p : Expr → Prop) (f : Func) : Prop :=
  ∀ k, s.Reaches L f k → ∀ e ∈ k.subterms, p e ∧ ∀ fn ∈ L e, ∃ g, s.find? fn = some g

theorem Reaches.mono (h : Grows s t) (hk : s.Reaches L f k) : t.Reaches L f k :=
  Relation.ReflTransGen.mono (fun _ _ ⟨e, he, fn, hfn, hg⟩ => ⟨e, he, fn, hfn, h.find hg⟩) _ _ hk

theorem mem_of_reaches (hf : s.find? f.name = some f) (hk : s.Reaches L f k) : k ∈ s.functions := by
  rcases hk.cases_tail with rfl | ⟨j, -, e, -, fn, -, hk⟩
  · exact List.mem_of_find?_eq_some hf
  · exact List.mem_of_find?_eq_some hk

/-- What holds throughout a session holds of whatever one of its functions reaches. -/
theorem everywhere_of_functions (h : ∀ k ∈ s.functions, ∀ e ∈ k.subterms, p e)
    (hf : s.find? f.name = some f) : s.Everywhere L p f :=
  fun k hk => h k (mem_of_reaches hf hk)

theorem Everywhere.anti (h : Grows s t) (hf : t.Everywhere L p f) : s.Everywhere L p f := fun k hk => hf k (hk.mono h)

theorem Everywhere.reached (hf : s.Everywhere L p f) (hk : s.Reaches L f k) : s.Everywhere L p k :=
  fun _ hj => hf _ (hk.trans hj)

/-- If what is new in a larger session is as `p` says everywhere, then so is still what was before. -/
theorem Everywhere.grow (h : Grows s t) (hf : s.Everywhere L p f)
    (hnew : ∀ fn g, s.find? fn = none → t.find? fn = some g → t.Everywhere L p g) : t.Everywhere L p f := by
  have hsplit : ∀ k, t.Reaches L f k → s.Reaches L f k ∨ t.Everywhere L p k := by
    intro k hk
    induction hk with
    | refl => exact .inl .refl
    | tail hj hlink ih =>
      obtain ⟨e, he, fn, hfn, hk⟩ := hlink
      rcases ih with ih | ih
      · cases hs : s.find? fn with
        | none => exact .inr (hnew fn _ hs hk)
        | some k' =>
          cases (h.find hs).symm.trans hk
          exact .inl (ih.tail ⟨e, he, fn, hfn, hs⟩)
      · exact .inr (ih.reached (.single ⟨e, he, fn, hfn, hk⟩))
  intro k hk e he
  rcases hsplit k hk with hk | hk
  · exact hf k hk e he
  · exact hk k .refl e he

theorem Secure.everywhere (hf : s.Secure L p f) : s.Everywhere L p f := fun k hk e he => (hf k hk e he).1

theorem Secure.imp {q : Expr → Prop} (hf : s.Secure L p f)
    (h : ∀ k, s.Reaches L f k → ∀ e ∈ k.subterms, p e → q e) : s.Secure L q f :=
  fun k hk e he => ⟨h k hk e he (hf k hk e he).1, (hf k hk e he).2⟩

theorem Secure.reached (hf : s.Secure L p f) (hk : s.Reaches L f k) : s.Secure L p k := fun _ hj => hf _ (hk.trans hj)

/-- The nodes of the function itself, and what they link to. -/
theorem Secure.node (hf : s.Secure L p f) {e : Expr} (he : e ∈ f.subterms) :
    p e ∧ ∀ fn ∈ L e, ∃ g, s.find? fn = some g ∧ s.Secure L p g := by
  obtain ⟨hp, hlinks⟩ := hf f .refl e he
  refine ⟨hp, fun fn hfn => ?_⟩
  obtain ⟨g, hg⟩ := hlinks fn hfn
  exact ⟨g, hg, hf.reached (.single ⟨e, he, fn, hfn, hg⟩)⟩

theorem secure_of_nodes (h : ∀ e ∈ f.subterms, p e ∧ ∀ fn ∈ L e, ∃ g, s.find? fn = some g ∧ s.Secure L p g) :
    s.Secure L p f := by
  intro k hk e he
  rcases hk.cases_head with rfl | ⟨j, ⟨d, hd, fn, hfn, hj⟩, hk⟩
  · obtain ⟨hp, hlinks⟩ := h e he
    exact ⟨hp, fun fn hfn => (hlinks fn hfn).imp fun _ hg => hg.1⟩
  · obtain ⟨g, hg, hsecure⟩ := (h d hd).2 fn hfn
    cases hg.symm.trans hj
    exact hsecure k hk e he

/-- In a larger session nothing more is reached. -/
theorem Secure.reaches (h : Grows s t) (hf : s.Secure L p f) (hk : t.Reaches L f k) : s.Reaches L f k := by
  induction hk with
  | refl => exact .refl
  | tail _ hlink ih =>
    obtain ⟨e, he, fn, hfn, hg⟩ := hlink
    obtain ⟨g, hs⟩ := (hf _ ih e he).2 fn hfn
    cases (h.find hs).symm.trans hg
    exact ih.tail ⟨e, he, fn, hfn, hs⟩

theorem Secure.mono (h : Grows s t) (hf : s.Secure L p f) : t.Secure L p f := by
  intro k hk e he
  obtain ⟨hp, hlinks⟩ := hf k (hf.reaches h hk) e he
  exact ⟨hp, fun fn hfn => (hlinks fn hfn).imp fun _ => h.find⟩

end Reaching

/-! ## The search for tiled adverbs -/

/-- The names are all taken by functions without tiled adverbs, that refer to none but these names. -/
def Untiled (s : Session) (names : List FnName) : Prop :=
  ∀ fn ∈ names, ∃ f, s.find? fn = some f ∧ f.hasTiled = false ∧ ∀ r ∈ f.refs, r ∈ names

variable {names pending visited : List FnName} {answer : Except Error Bool}

theorem Untiled.mono (h : Grows s t) (hnames : s.Untiled names) : t.Untiled names := by
  intro fn hfn
  obtain ⟨f, hf, hrest⟩ := hnames fn hfn
  exact ⟨f, h.find hf, hrest⟩

theorem lookup_eq_ok_iff : s.lookup fn = .ok f ↔ s.find? fn = some f := by
  unfold lookup
  cases s.find? fn <;> simp

/-- Names that are different and all taken are no more than the functions. -/
theorem length_le_numFunctions (hnodup : names.Nodup) (h : ∀ fn ∈ names, ∃ f, s.find? fn = some f) :
    names.length ≤ s.numFunctions := by
  have hsub : names ⊆ s.functions.map (·.name) := by
    intro fn hfn
    obtain ⟨f, hf⟩ := h fn hfn
    exact List.mem_map.mpr ⟨f, List.mem_of_find?_eq_some hf, name_of_find? hf⟩
  simpa [numFunctions] using (List.subperm_of_subset hnodup hsub).length_le

/-- The search from names that are `pending`, with `visited` behind it, comes to an answer: it takes up one pending
name after the other until it finds a tiled adverb, comes upon a name that is not taken, or has none left. -/
inductive Searches (s : Session) : List FnName → List FnName → Except Error Bool → Prop
  | done {visited : List FnName} : Searches s visited [] (.ok false)
  | skip {visited pending : List FnName} {fn : FnName} {answer : Except Error Bool} :
      fn ∈ visited → Searches s visited pending answer → Searches s visited (fn :: pending) answer
  | unknown {visited pending : List FnName} {fn : FnName} :
      fn ∉ visited → s.find? fn = none → Searches s visited (fn :: pending) (.error (.unknownFunction fn))
  | found {visited pending : List FnName} {fn : FnName} {f : Func} :
      fn ∉ visited → s.find? fn = some f → f.hasTiled = true → Searches s visited (fn :: pending) (.ok true)
  | expand {visited pending : List FnName} {fn : FnName} {f : Func} {answer : Except Error Bool} :
      fn ∉ visited → s.find? fn = some f → f.hasTiled = false →
      Searches s (fn :: visited) (f.refs.reverse ++ pending) answer → Searches s visited (fn :: pending) answer

/-- The search comes to one answer only. -/
theorem Searches.unique {answer' : Except Error Bool} (h : s.Searches visited pending answer)
    (h' : s.Searches visited pending answer') : answer = answer' := by
  induction h with
  | done =>
    cases h'
    rfl
  | skip hv _ ih =>
    cases h' with
    | skip _ h' => exact ih h'
    | unknown hnew | found hnew | expand hnew => exact absurd hv hnew
  | unknown hnew hnone =>
    cases h' with
    | skip hv => exact absurd hv hnew
    | unknown => rfl
    | found _ hf | expand _ hf => cases hnone.symm.trans hf
  | found hnew hf htiled =>
    cases h' with
    | skip hv => exact absurd hv hnew
    | unknown _ hnone => cases hf.symm.trans hnone
    | found => rfl
    | expand _ hf' hplain =>
      cases hf.symm.trans hf'
      cases htiled.symm.trans hplain
  | expand hnew hf hplain _ ih =>
    cases h' with
    | skip hv => exact absurd hv hnew
    | unknown _ hnone => cases hf.symm.trans hnone
    | found _ hf' htiled =>
      cases hf.symm.trans hf'
      cases htiled.symm.trans hplain
    | expand _ hf' _ h' =>
      cases hf.symm.trans hf'
      exact ih h'

/-- Names that have been visited are passed over. -/
theorem searches_of_dropWhile (h : s.Searches visited (pending.dropWhile (visited.contains ·)) answer) :
    s.Searches visited pending answer := by
  induction pending with
  | nil => exact h
  | cons fn pending ih =>
    rw [List.dropWhile_cons] at h
    split at h
    next hv => exact .skip (by simpa using hv) (ih h)
    next => exact h

/-- The bounded search is the search: the names that it expands are different and all taken, so that its budget never
runs out. -/
theorem searches_searchTiled {budget : Nat} (hbudget : s.numFunctions < budget + visited.length)
    (hnodup : visited.Nodup) (hvisited : ∀ v ∈ visited, ∃ f, s.find? v = some f) :
    s.Searches visited pending (s.searchTiled budget visited pending) := by
  induction budget generalizing visited pending with
  | zero =>
    have hle := length_le_numFunctions hnodup hvisited
    omega
  | succ budget ih =>
    refine searches_of_dropWhile ?_
    unfold searchTiled
    cases hd : pending.dropWhile (visited.contains ·) with
    | nil => exact .done
    | cons fn rest =>
      have hnew : fn ∉ visited := by
        have hhead := List.head?_dropWhile_not (visited.contains ·) pending
        rw [hd] at hhead
        simpa using hhead
      show s.Searches visited _ (s.lookup fn >>= _)
      cases hf : s.find? fn with
      | none =>
        rw [show s.lookup fn = .error (.unknownFunction fn) by rw [lookup, hf]]
        exact .unknown hnew hf
      | some f =>
        rw [lookup_eq_ok_iff.mpr hf]
        show s.Searches visited _ (if f.hasTiled then _ else _)
        cases htiled : f.hasTiled with
        | true => exact .found hnew hf htiled
        | false =>
          refine .expand hnew hf htiled (ih (by simp; omega) (List.nodup_cons.mpr ⟨hnew, hnodup⟩) ?_)
          exact List.forall_mem_cons.mpr ⟨⟨f, hf⟩, hvisited⟩

theorem searches_reachesTiled (s : Session) (f : Func) : s.Searches [] [f.name] (s.reachesTiled f) :=
  searches_searchTiled (by simp) List.nodup_nil (by simp)

/-- A search that finds nothing has come upon names whose functions refer to one another only. -/
theorem Searches.untiled (h : s.Searches visited pending answer) (hanswer : answer = .ok false)
    (hvisited : ∀ v ∈ visited, ∃ f, s.find? v = some f ∧ f.hasTiled = false ∧ ∀ r ∈ f.refs, r ∈ visited ∨ r ∈ pending) :
    ∃ names, s.Untiled names ∧ visited ⊆ names ∧ pending ⊆ names := by
  -- names that move from one list to the other stay among the two
  have hmove {vs ps vs' ps' : List FnName} (hsub : ∀ r, r ∈ vs ∨ r ∈ ps → r ∈ vs' ∨ r ∈ ps') {v : FnName}
      (hv : ∃ f, s.find? v = some f ∧ f.hasTiled = false ∧ ∀ r ∈ f.refs, r ∈ vs ∨ r ∈ ps) :
      ∃ f, s.find? v = some f ∧ f.hasTiled = false ∧ ∀ r ∈ f.refs, r ∈ vs' ∨ r ∈ ps' :=
    hv.imp fun _ hf => ⟨hf.1, hf.2.1, fun r hr => hsub r (hf.2.2 r hr)⟩
  induction h with
  | @done visited =>
    refine ⟨visited, fun v hv => ?_, fun _ hv => hv, List.nil_subset _⟩
    exact (hvisited v hv).imp fun _ hf => ⟨hf.1, hf.2.1, fun r hr => (hf.2.2 r hr).resolve_right List.not_mem_nil⟩
  | skip hv _ ih =>
    obtain ⟨names, hnames, hvs, hps⟩ := ih hanswer fun v hv' =>
      hmove (by rintro r (hr | _ | hr) <;> tauto) (hvisited v hv')
    exact ⟨names, hnames, hvs, List.cons_subset.mpr ⟨hvs hv, hps⟩⟩
  | unknown | found => cases hanswer
  | @expand visited pending fn f _ _ hf hplain _ ih =>
    obtain ⟨names, hnames, hvs, hps⟩ := ih hanswer <| List.forall_mem_cons.mpr
      ⟨⟨f, hf, hplain, fun r hr => .inr (List.mem_append_left _ (List.mem_reverse.mpr hr))⟩,
        fun v hv => hmove (fun r hr => by simp only [List.mem_cons, List.mem_append] at hr ⊢; tauto) (hvisited v hv)⟩
    obtain ⟨hfn, hvs⟩ := List.cons_subset.mp hvs
    exact ⟨names, hnames, hvs, List.cons_subset.mpr ⟨hfn, fun r hr => hps (List.mem_append_right _ hr)⟩⟩

/-- A search that stays among such names finds nothing. -/
theorem Searches.of_untiled (h : s.Searches visited pending answer) (hnames : s.Untiled names)
    (hpending : pending ⊆ names) :
    answer = .ok false := by
  induction h with
  | done => rfl
  | skip _ _ ih => exact ih (List.cons_subset.mp hpending).2
  | unknown _ hnone =>
    obtain ⟨f, hf, -⟩ := hnames _ (hpending List.mem_cons_self)
    cases hnone.symm.trans hf
  | found _ hf htiled =>
    obtain ⟨f, hf', hplain, -⟩ := hnames _ (hpending List.mem_cons_self)
    cases hf.symm.trans hf'
    cases htiled.symm.trans hplain
  | expand _ hf _ _ ih =>
    obtain ⟨f, hf', -, hrefs⟩ := hnames _ (hpending List.mem_cons_self)
    cases hf.symm.trans hf'
    refine ih (List.append_subset.mpr ⟨fun r hr => hrefs r (List.mem_reverse.mp hr), (List.cons_subset.mp hpending).2⟩)

theorem reachesTiled_false_iff : s.reachesTiled f = .ok false ↔ ∃ names, s.Untiled names ∧ f.name ∈ names := by
  constructor
  · intro h
    obtain ⟨names, hnames, _, hf⟩ := (s.searches_reachesTiled f).untiled h fun v hv => absurd hv List.not_mem_nil
    exact ⟨names, hnames, hf List.mem_cons_self⟩
  · rintro ⟨names, hnames, hf⟩
    exact (s.searches_reachesTiled f).of_untiled hnames (List.cons_subset.mpr ⟨hf, List.nil_subset _⟩)

theorem mem_refs : fn ∈ f.refs ↔ ∃ e ∈ f.subterms, fn ∈ e.refs := by
  simp [Func.refs, NameMap.mem_keys_ofList]

/-- Where the search finds nothing tiled, there is nothing tiled to come upon by names that it follows. -/
theorem secure_of_reachesTiled {L : Expr → List FnName} (hL : ∀ e : Expr, e.isTiled = false → L e ⊆ e.refs)
    (hf : s.find? f.name = some f) (h : s.reachesTiled f = .ok false) : s.Secure L (fun e => e.isTiled = false) f := by
  obtain ⟨names, hnames, hmem⟩ := reachesTiled_false_iff.mp h
  have hnode {k : Func} (hk : k.name ∈ names ∧ s.find? k.name = some k) :
      ∀ e ∈ k.subterms, e.isTiled = false ∧ ∀ fn ∈ L e, fn ∈ names := by
    obtain ⟨j, hj, hplain, hrefs⟩ := hnames _ hk.1
    cases hj.symm.trans hk.2
    rw [Func.hasTiled, List.any_eq_false] at hplain
    intro e he
    have hplain : e.isTiled = false := by simpa using hplain e he
    exact ⟨hplain, fun fn hfn => hrefs fn (mem_refs.mpr ⟨e, he, hL e hplain hfn⟩)⟩
  intro k hk
  have hin : k.name ∈ names ∧ s.find? k.name = some k := by
    induction hk with
    | refl => exact ⟨hmem, hf⟩
    | tail hj hlink ih =>
      obtain ⟨e, he, fn, hfn, hk⟩ := hlink
      rw [name_of_find? hk]
      exact ⟨(hnode ih e he).2 fn hfn, hk⟩
  intro e he
  refine ⟨(hnode hin e he).1, fun fn hfn => ?_⟩
  obtain ⟨g, hg, -⟩ := hnames fn ((hnode hin e he).2 fn hfn)
  exact ⟨g, hg⟩

/-- What has been found is found in a larger session as well. -/
theorem Searches.mono (h : Grows s t) (hs : s.Searches visited pending answer) (hanswer : answer = .ok true) :
    t.Searches visited pending answer := by
  induction hs with
  | done | unknown => cases hanswer
  | skip hv _ ih => exact .skip hv (ih hanswer)
  | found hnew hf htiled => exact .found hnew (h.find hf) htiled
  | expand hnew hf hplain _ ih => exact .expand hnew (h.find hf) hplain (ih hanswer)

/-- The answer of the search stays. -/
theorem reachesTiled_mono (h : Grows s t) {b : Bool} (hs : s.reachesTiled f = .ok b) : t.reachesTiled f = .ok b := by
  cases b with
  | true => exact (t.searches_reachesTiled f).unique (hs ▸ (s.searches_reachesTiled f).mono h hs)
  | false =>
    obtain ⟨names, hnames, hf⟩ := reachesTiled_false_iff.mp hs
    exact reachesTiled_false_iff.mpr ⟨names, hnames.mono h, hf⟩

/-! ## Counting tile sizes -/

theorem foldlM_ok_mono {α β ε : Type} {step step' : β → α → Except ε β} {xs : List α} {b c : β}
    (hstep : ∀ b x c, step b x = .ok c → step' b x = .ok c) (h : xs.foldlM step b = .ok c) :
    xs.foldlM step' b = .ok c := by
  induction xs generalizing b with
  | nil => exact h
  | cons x xs ih =>
    rw [List.foldlM_cons] at h ⊢
    obtain ⟨b', hb, h⟩ := except_bind_ok h
    rw [hstep b x b' hb]
    exact ih h

theorem countTiles_mono (h : Grows s t) {depth depth' n : Nat} (hle : depth ≤ depth') {active : List FnName}
    (hs : s.countTiles depth active f = .ok n) : t.countTiles depth' active f = .ok n := by
  induction depth generalizing depth' active f n with
  | zero => cases hs
  | succ depth ih =>
    obtain ⟨depth', rfl⟩ := Nat.exists_eq_add_one_of_ne_zero (show depth' ≠ 0 by omega)
    unfold countTiles at hs ⊢
    cases hactive : active.contains f.name with
    | true =>
      rw [hactive] at hs
      cases hs
    | false =>
      rw [hactive] at hs
      refine foldlM_ok_mono (fun count name c hc => ?_) hs
      obtain ⟨g, hg, hc⟩ := except_bind_ok hc
      obtain ⟨b, hb, hc⟩ := except_bind_ok hc
      show (t.lookup name >>= _) = _
      rw [lookup_eq_ok_iff.mpr (h.find (lookup_eq_ok_iff.mp hg))]
      show (t.reachesTiled g >>= _) = _
      rw [reachesTiled_mono h hb]
      cases b with
      | false => exact hc
      | true =>
        obtain ⟨m, hm, hc⟩ := except_bind_ok hc
        show (t.countTiles depth' _ g >>= _) = _
        rw [ih (by omega) hm]
        exact hc

theorem numDynamicTiles_mono (h : Grows s t) {n : Nat} (hs : s.numDynamicTiles f = .ok n) :
    t.numDynamicTiles f = .ok n :=
  countTiles_mono h (by have := h.size; omega) hs

end Session

end ArrayIR
