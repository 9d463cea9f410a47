import Classlet.Proofs.Analysis.Acceptance
import Classlet.Proofs.Analysis.FailFast
import Classlet.Proofs.Syntax.Parentheses

/-!
# Parentheses and analysis

No pass finds anything at the node of parentheses, and what a pass finds at another node depends on
the kind of the node and the types of the expressions right below it, which are the same without
parentheses.  So the walks over the tree of a program and over that of the bare program say the same
(`Check.SaysSame`): they find errors with the same messages in the same order, at nodes that may
stand in different places, and end with the same result.  A walk may halt, at a method of a further
class, and then both do.

* `analyze_messages`: the messages of the analysis are those for the bare program.
-/

namespace Classlet

open Subtree

/-! ### Types -/

theorem Expr.typeOf_bare (scope : Scope) (e : Expr) : e.bare.typeOf scope = e.typeOf scope := by
  induction e with
  | call receiver method args ih => rw [bare, typeOf, typeOf, ih]
  | field object name ih => rw [bare, typeOf, typeOf, ih]
  | index array position ih => rw [bare, typeOf, typeOf, ih]
  | paren inner ih => rw [bare, typeOf, ih]
  | _ => rfl

theorem Part.types_bare (scope : Scope) {part : Part} (h : ∀ inner, part ≠ .expr (.paren inner)) :
    part.bare.types scope = part.types scope := by
  rw [types, types, values, values, (bare_of_parts h).2, List.filterMap_map]
  refine List.filterMap_congr fun inner _ => ?_
  cases inner with
  | expr e => simp [bare, expr?, Expr.typeOf_bare]
  | _ => rfl

/-! ### Checks that say the same -/

namespace Check

variable {α β : Type}

/-- The checks find errors with the same messages, and end with the same result. -/
structure SaysSame (c d : Check α) : Prop where
  messages : c.findings.map Finding.message = d.findings.map Finding.message
  result : c.result = d.result

namespace SaysSame

theorem refl (c : Check α) : SaysSame c c := ⟨rfl, rfl⟩

theorem bind {c d : Check α} {f g : α → Check β} (h : SaysSame c d)
    (hf : ∀ a, SaysSame (f a) (g a)) : SaysSame (c >>= f) (d >>= g) := by
  obtain ⟨found, result⟩ := c
  obtain ⟨found', _⟩ := d
  obtain ⟨hfound, rfl⟩ := h
  cases result with
  | error e => exact ⟨hfound, rfl⟩
  | ok a =>
    refine ⟨?_, (hf a).result⟩
    rw [bind_ok, bind_ok, List.map_append, List.map_append, (hf a).messages]
    exact congrArg (· ++ _) hfound

theorem found (msgs : List String) (p q : Position) :
    SaysSame (⟨msgs.map (Finding.mk p), .ok ()⟩ : Check Unit)
      ⟨msgs.map (Finding.mk q), .ok ()⟩ := by
  refine ⟨?_, rfl⟩
  rw [List.map_map, List.map_map]
  rfl

end SaysSame

end Check

open Check (SaysSame)

namespace Pass

/-! ### Walks that say the same -/

/-- In every scope the walks over the subtrees say the same, and the subtrees are entered alike. -/
structure WalkedAlike (pass : Pass) (t t' : Tree) (c c' : Subtree) : Prop where
  kind : c'.kind = c.kind ∨ c.kind.isMethod = false ∧ c'.kind.isMethod = false
  walk : ∀ scope, SaysSame (pass.walk t scope c.toShape) (pass.walk t' scope c'.toShape)

variable {pass : Pass} {t t' : Tree}

theorem walkChildren_saysSame {cs cs' : List Subtree}
    (h : List.Forall₂ (WalkedAlike pass t t') cs cs') (scope : Scope) (index : Nat) :
    SaysSame (pass.walkChildren t scope index (cs.map fun c _ => c.toShape))
      (pass.walkChildren t' scope index (cs'.map fun c _ => c.toShape)) := by
  induction h generalizing index with
  | nil => exact .refl _
  | @cons c c' cs cs' hc _ ih =>
    obtain ⟨hkind, hwalk⟩ := hc
    rw [List.map_cons, List.map_cons]
    by_cases hm : c.kind.isMethod = true
    · -- both are the method of this index
      obtain heq := hkind.resolve_right fun hno => by rw [hm] at hno; cases hno.1
      obtain ⟨i, k, p, ds⟩ := c
      obtain ⟨i', k', p', ds'⟩ := c'
      rw [kind_node, kind_node] at heq
      subst heq
      cases k' with
      | methodDecl name isPublic isStatic =>
        rw [walkChildren, walkChildren, Check.shapeKind_node, Check.shapeKind_node,
          Check.lift_ok_bind, Check.lift_ok_bind]
        exact (SaysSame.refl (.lift (scope.enter index name))).bind fun inner =>
          (hwalk inner).bind fun _ => ih _
      | _ => cases hm
    · rw [Bool.not_eq_true] at hm
      have hm' : c'.kind.isMethod = false := by
        rcases hkind with heq | hno
        · rw [heq, hm]
        · exact hno.2
      rw [walkChildren_cons hm, walkChildren_cons hm']
      exact (hwalk scope).bind fun _ => ih index

theorem walk_saysSame {i i' : NodeId} {k k' : Kind} {p p' : Position} {cs cs' : List Subtree}
    {scope : Scope}
    (hvisit : SaysSame (pass.visit t scope (node i k p cs).toShape)
      (pass.visit t' scope (node i' k' p' cs').toShape))
    (hcs : List.Forall₂ (WalkedAlike pass t t') cs cs') :
    SaysSame (pass.walk t scope (node i k p cs).toShape)
      (pass.walk t' scope (node i' k' p' cs').toShape) := by
  rw [walk_node, walk_node]
  exact hvisit.bind fun _ => walkChildren_saysSame hcs scope 0

theorem forall₂_of_common {α β γ : Type} {R : α → γ → Prop} {S : β → γ → Prop} {T : α → β → Prop}
    {as : List α} {bs : List β} {xs : List γ} (h : List.Forall₂ R as xs) (h' : List.Forall₂ S bs xs)
    (hT : ∀ x ∈ xs, ∀ a ∈ as, ∀ b ∈ bs, R a x → S b x → T a b) : List.Forall₂ T as bs := by
  induction h generalizing bs with
  | nil =>
    cases h'
    exact .nil
  | @cons a x as xs ha _ ih =>
    obtain ⟨b, bs, hb, hrest, rfl⟩ := List.forall₂_cons_right_iff.mp h'
    rw [List.forall_mem_cons] at hT
    refine .cons (hT.1 a List.mem_cons_self b List.mem_cons_self ha hb) (ih hrest ?_)
    exact fun x hx a ha b hb =>
      hT.2 x hx a (List.mem_cons_of_mem _ ha) b (List.mem_cons_of_mem _ hb)

/-- **A pass that judges by kinds and types and has nothing to say about parentheses** says the same
about a part and the bare part. -/
theorem JudgesBy.walkedAlike {messages : Scope → Kind → List ExprType → List String}
    (hj : pass.JudgesBy messages) (hparen : ∀ scope types, messages scope .paren types = [])
    {b b' : Subtree} {part : Part} (hb : b.Reads part) (hb' : b'.Reads part.bare) :
    WalkedAlike pass t t' b b' := by
  induction b generalizing part b' with
  | node i k p cs ih =>
    by_cases hpart : ∃ inner, part = .expr (.paren inner)
    · obtain ⟨inner, rfl⟩ := hpart
      obtain ⟨hk, hcs⟩ := reads_node_iff.mp hb
      obtain ⟨c, rfl, hc⟩ := forall₂_one hcs
      have hinner := ih c List.mem_cons_self hc hb'
      have hm : c.kind.isMethod = false := by
        rw [hc.kind_eq]
        exact Part.isMethod_kind_of_isFlat rfl
      refine ⟨.inr ⟨by rw [kind_node, hk]; rfl, ?_⟩, fun scope => ?_⟩
      · rw [hb'.kind_eq]
        exact Part.isMethod_kind_of_isFlat rfl
      · obtain ⟨q, hvisit⟩ := hj t scope hb
        have hnothing : messages scope (Part.expr (.paren inner)).kind
            ((Part.expr (.paren inner)).types scope) = [] := hparen scope _
        have hwalk : pass.walk t scope (node i k p [c]).toShape = pass.walk t scope c.toShape := by
          rw [walk_node, hvisit, hnothing, List.map_cons, walkChildren_cons hm, List.map_nil]
          exact (pure_bind () _).trans bind_pure_unit
        rw [hwalk]
        exact hinner.walk scope
    · have hne : ∀ inner, part ≠ .expr (.paren inner) := fun inner hi => hpart ⟨inner, hi⟩
      obtain ⟨hkind, hparts⟩ := Part.bare_of_parts hne
      obtain ⟨hk, hcs⟩ := reads_node_iff.mp hb
      obtain ⟨i', p', cs', rfl, hcs'⟩ := reads_iff.mp hb'
      rw [hparts, List.forall₂_map_right_iff] at hcs'
      refine ⟨.inl (by rw [kind_node, kind_node, hk, hkind]), fun scope => walk_saysSame ?_ ?_⟩
      · obtain ⟨q, hvisit⟩ := hj t scope hb
        obtain ⟨q', hvisit'⟩ := hj t' scope hb'
        rw [hvisit, hvisit', hkind, Part.types_bare scope hne]
        exact .found _ q q'
      · exact forall₂_of_common hcs hcs' fun part _ c hmem c' _ hc hc' => ih c hmem hc hc'

end Pass

/-! ### Written types -/

namespace WrittenTypes

open Pass

variable {t t' : Tree}

theorem walkedAlike_node (part part' : Part) (hkind : part'.kind = part.kind)
    (hpart : part.type? = none) (hpart' : part'.type? = none) {i i' : NodeId} {p p' : Position}
    {cs cs' : List Subtree} (hb : (node i part.kind p cs).Reads part)
    (hb' : (node i' part'.kind p' cs').Reads part')
    (hcs : List.Forall₂ (WalkedAlike declarationPass t t') cs cs') :
    WalkedAlike declarationPass t t' (node i part.kind p cs) (node i' part'.kind p' cs') := by
  refine ⟨.inl hkind, fun scope => walk_saysSame ?_ hcs⟩
  rw [visit_other t scope hb hpart, visit_other t' scope hb' hpart']
  exact .refl _

/-- In every scope the visit finds what is wrong with the type in the slot. -/
def Judged (t : Tree) (slot : Slot) (ty : TypeExpr) (d : Subtree) : Prop :=
  ∀ scope, ∃ p : Position, declarationPass.visit t scope d.toShape
    = ⟨(messages scope slot ty).map (Finding.mk p), .ok ()⟩

theorem walkedAlike_type {slot : Slot} {ty : TypeExpr} {d d' : Subtree} (hd : d.Reads (.type ty))
    (hd' : d'.Reads (.type ty)) (h : Judged t slot ty d) (h' : Judged t' slot ty d') :
    WalkedAlike declarationPass t t' d d' := by
  refine ⟨.inl (by rw [hd.kind_eq, hd'.kind_eq]), fun scope => ?_⟩
  obtain ⟨q, hvisit⟩ := h scope
  obtain ⟨q', hvisit'⟩ := h' scope
  obtain ⟨i, p, cs, rfl, hcs⟩ := reads_iff.mp hd
  obtain ⟨i', p', cs', rfl, hcs'⟩ := reads_iff.mp hd'
  cases hcs
  cases hcs'
  refine walk_saysSame ?_ .nil
  rw [hvisit, hvisit']
  exact .found _ q q'

theorem walkedAlike_decl {slot : Slot} {part : Part} {ty : TypeExpr} (hpart : part.type? = none)
    {i i' : NodeId} {p p' : Position} {d d' : Subtree} (hb : (node i part.kind p [d]).Reads part)
    (hb' : (node i' part.kind p' [d']).Reads part) (hd : d.Reads (.type ty))
    (hd' : d'.Reads (.type ty)) (h : Judged t slot ty d) (h' : Judged t' slot ty d') :
    WalkedAlike declarationPass t t' (node i part.kind p [d]) (node i' part.kind p' [d']) :=
  walkedAlike_node part part rfl hpart hpart hb hb' (.cons (walkedAlike_type hd hd' h h') .nil)

theorem walkedAlike_varDecls {above above' : Option NodeId} {j j' : NodeId} {k : Kind}
    {p p' : Position} {cs cs' : List Subtree} (h : t.Holds above (node j k p cs))
    (h' : t'.Holds above' (node j' k p' cs')) {decls : List (String × TypeExpr)}
    {vs vs' : List Subtree} (hsub : ∀ c ∈ vs, c ∈ cs) (hsub' : ∀ c ∈ vs', c ∈ cs')
    (hvs : List.Forall₂ Reads vs (decls.map .varDecl))
    (hvs' : List.Forall₂ Reads vs' (decls.map .varDecl)) :
    List.Forall₂ (WalkedAlike declarationPass t t') vs vs' := by
  refine forall₂_of_common hvs hvs' fun part hpart c hc c' hc' hread hread' => ?_
  obtain ⟨decl, -, rfl⟩ := List.mem_map.mp hpart
  obtain ⟨i, q, d, rfl, hd⟩ := reads_decl hread rfl
  obtain ⟨i', q', d', rfl, hd'⟩ := reads_decl hread' rfl
  exact walkedAlike_decl rfl hread hread' hd hd'
    (fun _ => visit_type hd (slot?_varDecl h (hsub _ hc)))
    fun _ => visit_type hd' (slot?_varDecl h' (hsub' _ hc'))

theorem walkedAlike_stmt {s s' : Stmt} {b b' : Subtree} (hb : b.Reads (.stmt s))
    (hb' : b'.Reads (.stmt s')) : WalkedAlike declarationPass t t' b b' := by
  have hclean : ∀ (t : Tree) {s : Stmt} {b : Subtree}, b.Reads (.stmt s) → ∀ scope,
      declarationPass.walk t scope b.toShape = pure () := by
    intro t s b hb scope
    refine (walk_iff Check.stepwise_clean hb fun _ hi => Part.isFlat_of_mem rfl hi).mpr ?_
    intro d hd
    obtain ⟨part, hread, hin⟩ := hb.within hd
    exact visit_other t scope hread (type?_of_inside_stmt hin)
  refine ⟨.inr ⟨?_, ?_⟩, fun scope => ?_⟩
  · rw [hb.kind_eq]
    exact Part.isMethod_kind_of_isFlat rfl
  · rw [hb'.kind_eq]
    exact Part.isMethod_kind_of_isFlat rfl
  · rw [hclean t hb scope, hclean t' hb' scope]
    exact .refl _

theorem exists_members {b : Subtree} {m : MethodDecl} (hb : b.Reads (.method m)) :
    ∃ j p rs ps ls bs, b = node j (Part.method m).kind p (rs ++ ps ++ ls ++ bs) ∧
      List.Forall₂ Reads rs (m.returnType.toList.map .type) ∧
      List.Forall₂ Reads ps (m.params.map .param) ∧
      List.Forall₂ Reads ls (m.locals.map .varDecl) ∧
      List.Forall₂ Reads bs (m.body.map .stmt) := by
  obtain ⟨j, p, cs, rfl, hcs⟩ := reads_iff.mp hb
  obtain ⟨front, bs, rfl, hfront, hbs⟩ := forall₂_append_inv hcs
  obtain ⟨front, ls, rfl, hfront, hls⟩ := forall₂_append_inv hfront
  obtain ⟨rs, ps, rfl, hrs, hps⟩ := forall₂_append_inv hfront
  exact ⟨j, p, rs, ps, ls, bs, rfl, hrs, hps, hls, hbs⟩

/-- The parameters of a method: the place of one among them shows whether it is the last. -/
theorem walkedAlike_params {above above' : Option NodeId} {m : MethodDecl} {j j' : NodeId}
    {p p' : Position} {rs ps ls bs rs' ps' ls' bs' : List Subtree}
    (h : t.Holds above (node j (Part.method m).kind p (rs ++ ps ++ ls ++ bs)))
    (h' : t'.Holds above' (node j' (Part.method m.bare).kind p' (rs' ++ ps' ++ ls' ++ bs')))
    (hn : (node j (Part.method m).kind p (rs ++ ps ++ ls ++ bs)).ids.Nodup)
    (hn' : (node j' (Part.method m.bare).kind p' (rs' ++ ps' ++ ls' ++ bs')).ids.Nodup)
    (hps : List.Forall₂ Reads ps (m.params.map .param))
    (hps' : List.Forall₂ Reads ps' (m.bare.params.map .param))
    (hls : List.Forall₂ Reads ls (m.locals.map .varDecl))
    (hls' : List.Forall₂ Reads ls' (m.bare.locals.map .varDecl))
    (hbs : List.Forall₂ Reads bs (m.body.map .stmt))
    (hbs' : List.Forall₂ Reads bs' (m.bare.body.map .stmt)) :
    List.Forall₂ (WalkedAlike declarationPass t t') ps ps' := by
  have hlen : ps.length = m.params.length := by rw [hps.length_eq, List.length_map]
  have hlen' : ps'.length = m.params.length := by
    rw [hps'.length_eq, List.length_map, m.params_bare]
  refine List.forall₂_iff_get.mpr ⟨hlen.trans hlen'.symm, fun n hlt hlt' => ?_⟩
  have hread := hps.get hlt (by rwa [List.length_map, ← hlen])
  have hread' := hps'.get hlt' (by rwa [List.length_map, m.params_bare, ← hlen'])
  have hparam : n < m.params.length := hlen ▸ hlt
  have hdecl : m.params[n]? = some m.params[n] := List.getElem?_eq_getElem hparam
  simp only [List.get_eq_getElem, List.getElem_map, m.params_bare] at hread hread' ⊢
  obtain ⟨i, q, d, hc, hd⟩ := reads_decl hread rfl
  obtain ⟨i', q', d', hc', hd'⟩ := reads_decl hread' rfl
  have hget : ps[n]? = some (node i (.param m.params[n].1) q [d]) := by
    rw [List.getElem?_eq_getElem hlt, hc]
    rfl
  have hget' : ps'[n]? = some (node i' (.param m.params[n].1) q' [d']) := by
    rw [List.getElem?_eq_getElem hlt', hc']
    rfl
  rw [hc] at hread
  rw [hc'] at hread'
  rw [hc, hc']
  exact walkedAlike_decl rfl hread hread' hd hd'
    (fun scope => (visitsType_param scope h hn hps hls hbs hdecl hget hd).2)
    fun scope => (visitsType_param scope h' hn' hps' hls' hbs' hdecl hget' hd').2

/-- **The types written in a method** stand in the same slots without parentheses in its body. -/
theorem walkedAlike_method {above above' : Option NodeId} {m : MethodDecl} {b b' : Subtree}
    (h : t.Holds above b) (h' : t'.Holds above' b') (hn : b.ids.Nodup) (hn' : b'.ids.Nodup)
    (hb : b.Reads (.method m)) (hb' : b'.Reads (.method m.bare)) :
    WalkedAlike declarationPass t t' b b' := by
  have hwhole := hb
  have hwhole' := hb'
  obtain ⟨j, p, rs, ps, ls, bs, rfl, hrs, hps, hls, hbs⟩ := exists_members hb
  obtain ⟨j', p', rs', ps', ls', bs', rfl, hrs', hps', hls', hbs'⟩ := exists_members hb'
  refine walkedAlike_node (.method m) (.method m.bare) rfl rfl rfl hwhole hwhole' ?_
  refine List.rel_append (List.rel_append (List.rel_append ?_ ?_) ?_) ?_
  · refine forall₂_of_common hrs hrs' fun part hpart c hc c' hc' hread hread' => ?_
    obtain ⟨ty, -, rfl⟩ := List.mem_map.mp hpart
    exact walkedAlike_type hread hread'
      (fun _ => visit_type hread (slot?_returned h (by simp [hc])))
      fun _ => visit_type hread' (slot?_returned h' (by simp [hc']))
  · exact walkedAlike_params h h' hn hn' hps hps' hls hls' hbs hbs'
  · exact walkedAlike_varDecls h h' (fun c hc => by simp [hc]) (fun c hc => by simp [hc]) hls hls'
  · rw [List.forall₂_map_right_iff] at hbs
    rw [MethodDecl.bare, List.map_map, List.forall₂_map_right_iff] at hbs'
    exact forall₂_of_common hbs hbs' fun s _ c _ c' _ hread hread' =>
      walkedAlike_stmt hread hread'

theorem walkedAlike_class {above above' : Option NodeId} {c : ClassDecl} {b b' : Subtree}
    (h : t.Holds above b) (h' : t'.Holds above' b') (hn : b.ids.Nodup) (hn' : b'.ids.Nodup)
    (hb : b.Reads (.classDecl c)) (hb' : b'.Reads (.classDecl c.bare)) :
    WalkedAlike declarationPass t t' b b' := by
  have hwhole := hb
  have hwhole' := hb'
  obtain ⟨i, p, cs, rfl, hcs⟩ := reads_iff.mp hb
  obtain ⟨i', p', cs', rfl, hcs'⟩ := reads_iff.mp hb'
  obtain ⟨fs, ms, rfl, hfs, hms⟩ := forall₂_append_inv hcs
  obtain ⟨fs', ms', rfl, hfs', hms'⟩ := forall₂_append_inv hcs'
  refine walkedAlike_node (.classDecl c) (.classDecl c.bare) rfl rfl rfl hwhole hwhole'
    (List.rel_append ?_ ?_)
  · exact walkedAlike_varDecls h h' (fun _ => List.mem_append_left _)
      (fun _ => List.mem_append_left _) hfs hfs'
  · rw [List.forall₂_map_right_iff] at hms
    rw [ClassDecl.bare, List.map_map, List.forall₂_map_right_iff] at hms'
    refine forall₂_of_common hms hms' fun m _ d hd d' hd' hread hread' => ?_
    have hin : d ∈ fs ++ ms := List.mem_append_right _ hd
    have hin' : d' ∈ fs' ++ ms' := List.mem_append_right _ hd'
    exact walkedAlike_method (h.child d hin) (h'.child d' hin') (nodup_child hn hin)
      (nodup_child hn' hin') hread hread'

theorem walkedAlike_program {p : Program} {b b' : Subtree} (h : t.Pictures p b)
    (h' : t'.Pictures p.bare b') : WalkedAlike declarationPass t t' b b' := by
  obtain ⟨i, pos, cs, rfl, hcs⟩ := reads_iff.mp h.reads
  obtain ⟨i', pos', cs', rfl, hcs'⟩ := reads_iff.mp h'.reads
  obtain ⟨is, us, rfl, his, hus⟩ := forall₂_append_inv hcs
  obtain ⟨is', us', rfl, his', hus'⟩ := forall₂_append_inv hcs'
  refine walkedAlike_node (.program p) (.program p.bare) rfl rfl rfl h.reads h'.reads
    (List.rel_append ?_ ?_)
  · refine forall₂_of_common his his' fun part hpart d _ d' _ hread hread' => ?_
    obtain ⟨dotted, -, rfl⟩ := List.mem_map.mp hpart
    obtain ⟨j, q, ds, rfl, hds⟩ := reads_iff.mp hread
    obtain ⟨j', q', ds', rfl, hds'⟩ := reads_iff.mp hread'
    cases hds
    cases hds'
    exact walkedAlike_node (.importDecl dotted) (.importDecl dotted) rfl rfl rfl hread hread' .nil
  · rw [List.forall₂_map_right_iff] at hus
    rw [Program.bare, List.map_map, List.forall₂_map_right_iff] at hus'
    refine forall₂_of_common hus hus' fun c _ d hd d' hd' hread hread' => ?_
    have hin : d ∈ is ++ us := List.mem_append_right _ hd
    have hin' : d' ∈ is' ++ us' := List.mem_append_right _ hd'
    exact walkedAlike_class (h.holds.child d hin) (h'.holds.child d' hin')
      (nodup_child h.nodup hin) (nodup_child h'.nodup hin') hread hread'

end WrittenTypes

/-! ### All passes -/

section Program

variable {t t' : Tree} {p : Program} {b b' : Subtree}

theorem Names.importPass_judgesBy : importPass.JudgesBy fun _ _ _ => [] := by
  intro t scope b part _
  exact ⟨.unknown, rfl⟩

/-- No judgement has anything to say about parentheses. -/
theorem Part.fine_paren : ∀ messages ∈ judgements, ∀ scope types,
    messages scope .paren types = [] := by
  simp only [judgements, List.forall_mem_cons, List.not_mem_nil, false_imp_iff, implies_true,
    and_true]
  exact ⟨fun _ _ => rfl, fun _ _ => rfl, fun _ _ => rfl, fun _ _ => rfl, fun _ _ => rfl,
    fun _ _ => rfl, fun _ _ => rfl⟩

/-- **Every standard pass walks the tree of a program and that of the bare program alike.** -/
theorem Pass.standard_walkedAlike (h : t.Pictures p b) (h' : t'.Pictures p.bare b') :
    ∀ pass ∈ standard, WalkedAlike pass t t' b b' := by
  have hparen := Part.fine_paren
  have hb : b.Reads (.program p) := h.reads
  have hb' : b'.Reads (Part.program p).bare := h'.reads
  simp only [judgements, List.forall_mem_cons, List.not_mem_nil, false_imp_iff, implies_true,
    and_true] at hparen
  obtain ⟨h₁, h₂, h₃, h₄, h₅, h₆, h₇⟩ := hparen
  simp only [standard, List.forall_mem_cons, List.not_mem_nil, false_imp_iff, implies_true,
    and_true]
  exact ⟨Names.judgesBy_messages.walkedAlike h₁ hb hb',
    Operands.judgesBy_operationMessages.walkedAlike h₂ hb hb',
    Operands.judgesBy_conditionMessages.walkedAlike h₃ hb hb',
    Operands.judgesBy_arrayMessages.walkedAlike h₄ hb hb',
    Values.judgesBy_returnMessages.walkedAlike h₅ hb hb',
    Values.judgesBy_assignmentMessages.walkedAlike h₆ hb hb',
    Values.judgesBy_argumentMessages.walkedAlike h₇ hb hb',
    Names.importPass_judgesBy.walkedAlike (fun _ _ => rfl) hb hb',
    WrittenTypes.walkedAlike_program h h'⟩

theorem Pass.reportsOf_messages {c d : Check Unit} (h : SaysSame c d) (name : String) :
    (reportsOf name c).map Report.message = (reportsOf name d).map Report.message := by
  obtain ⟨found, result⟩ := c
  obtain ⟨found', _⟩ := d
  obtain ⟨hfound, rfl⟩ := h
  have hreported : (found.map Finding.report).map Report.message
      = (found'.map Finding.report).map Report.message := by
    rw [List.map_map, List.map_map]
    exact hfound
  rcases result with (e | f) | ⟨⟩
  · simp only [reportsOf, List.map_append, hreported]
  · rfl
  · exact hreported

theorem analyzeWith_messages {scope : Scope} (passes : List Pass)
    (h : ∀ pass ∈ passes, SaysSame (pass.run t scope) (pass.run t' scope)) :
    (analyzeWith t scope passes).map Report.message
      = (analyzeWith t' scope passes).map Report.message := by
  induction passes with
  | nil => rfl
  | cons pass passes ih =>
    rw [List.forall_mem_cons] at h
    have hmsgs : (pass.reports t scope).map Report.message
        = (pass.reports t' scope).map Report.message := Pass.reportsOf_messages h.1 _
    have hnil : pass.reports t scope = [] ↔ pass.reports t' scope = [] := by
      rw [← List.map_eq_nil_iff, hmsgs, List.map_eq_nil_iff]
    rw [analyzeWith_cons_eq, analyzeWith_cons_eq]
    by_cases hno : pass.reports t scope = []
    · rw [if_pos hno, if_pos (hnil.mp hno)]
      exact ih h.2
    · rw [if_neg hno, if_neg (hnil.not.mp hno)]
      exact hmsgs

/-- **Parentheses do not change the messages of the analysis.** -/
theorem analyze_messages (policy : ExternalPolicy) (table : SymbolTable) (h : t.Pictures p b)
    (h' : t'.Pictures p.bare b') : (analyze policy t table).map Report.message
      = (analyze policy t' table).map Report.message := by
  refine analyzeWith_messages _ fun pass hpass => ?_
  have hshape := h.holds.shape_eq h.nodup
  have hshape' := h'.holds.shape_eq h'.nodup
  rw [Pass.run, Pass.run, ← h.root, ← h'.root, hshape, hshape']
  exact ((Pass.standard_walkedAlike h h' pass hpass).walk _).bind fun _ => .refl _

end Program

end Classlet
