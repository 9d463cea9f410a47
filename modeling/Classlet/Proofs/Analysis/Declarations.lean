import Classlet.Proofs.Analysis.Passes

/-!
# Where types are written

The links of the tree of a program show for every written type the place in which it stands: a
field, a local variable, a parameter, which may be the last one, or a return type
(`method_visits`, `field_visits`).  So the pass on written types always comes to an end, and what it
finds depends on the declarations of the class only.
-/

namespace Classlet

open Subtree

namespace WrittenTypes

/-- What is wrong with a written type in a slot. -/
def messages (scope : Scope) (slot : Slot) (ty : TypeExpr) : List String :=
  typeErrors scope slot ty.name ty.isArray ty.isVarargs

end WrittenTypes

open WrittenTypes (Slot slot? firstParam? declarationPass)

/-- The method has a type written in a slot. -/
inductive MethodDecl.Writes (m : MethodDecl) : Slot → TypeExpr → Prop where
  | returned {ty : TypeExpr} (h : m.returnType = some ty) : Writes m .returned ty
  | param {k : Nat} {decl : String × TypeExpr} (h : m.params[k]? = some decl) :
      Writes m (.param (k + 1 = m.params.length)) decl.2
  | localVar {decl : String × TypeExpr} (h : decl ∈ m.locals) : Writes m .localVar decl.2

variable {t : Tree} {above : Option NodeId} {j : NodeId} {k : Kind} {p : Position}
  {cs : List Subtree} {d : Subtree}

/-! ### Links -/

theorem Tree.Holds.parent_eq (h : t.Holds above d) : t.parent d.id = .ok above := by
  obtain ⟨i, k, p, cs⟩ := d
  exact Tree.parent_eq_ok h.here

theorem Tree.Holds.children_eq (h : t.Holds above (Subtree.node j k p cs)) :
    t.children j = .ok (cs.map Subtree.id) := Tree.children_eq_ok h.here

namespace WrittenTypes

/-- The kind of a parameter. -/
def isParamNode (d : Subtree) : Bool := d.kind.paramName?.isSome

theorem firstParam?_ok {ds : List Subtree} (h : ∀ d ∈ ds, t.Holds (some j) d) :
    firstParam? t (ds.map Subtree.id) = .ok ((ds.find? isParamNode).map Subtree.id) := by
  induction ds with
  | nil => rfl
  | cons d ds ih =>
    rw [List.forall_mem_cons] at h
    rw [List.map_cons, firstParam?, h.1.kind_eq, ih h.2, List.find?_cons]
    cases hk : d.kind with
    | param name =>
      have hparam : isParamNode d = true := by rw [isParamNode, hk]; rfl
      rw [hparam]
      rfl
    | _ =>
      have hparam : isParamNode d = false := by rw [isParamNode, hk]; rfl
      rw [hparam]
      rfl

theorem slot?_returned {name : String} {isPublic isStatic : Bool}
    (h : t.Holds above (node j (.methodDecl name isPublic isStatic) p cs)) (hd : d ∈ cs) :
    slot? t d.id = .ok (some .returned) := by
  have hkind : t.kind j = .ok (.methodDecl name isPublic isStatic) := h.kind_eq
  rw [slot?, (h.child d hd).parent_eq]
  simp only [bind, Except.bind, hkind]
  rfl

/-- The slot of the type of a variable that is declared below a node of a kind. -/
def varSlot : Kind → Slot
  | .classDecl _ _ => .field
  | _ => .localVar

theorem slot?_varDecl {i : NodeId} {name : String} {q : Position}
    (h : t.Holds above (node j k p cs)) (hd : node i (.varDecl name) q [d] ∈ cs) :
    slot? t d.id = .ok (some (varSlot k)) := by
  have hdecl := h.child _ hd
  have hkind : t.kind i = .ok (.varDecl name) := hdecl.kind_eq
  have hparent : t.parent i = .ok (some j) := hdecl.parent_eq
  have howner : t.kind j = .ok k := h.kind_eq
  rw [slot?, (hdecl.child d List.mem_cons_self).parent_eq]
  simp only [bind, Except.bind, hkind, hparent, howner]
  cases k <;> rfl

theorem slot?_param {i : NodeId} {name : String} {q : Position}
    (h : t.Holds above (node j k p cs)) (hd : node i (.param name) q [d] ∈ cs) :
    slot? t d.id
      = .ok (some (.param ((cs.reverse.find? isParamNode).map Subtree.id = some i))) := by
  have hdecl := h.child _ hd
  have hkind : t.kind i = .ok (.param name) := hdecl.kind_eq
  have hparent : t.parent i = .ok (some j) := hdecl.parent_eq
  have hfirst : firstParam? t (cs.map Subtree.id).reverse
      = .ok ((cs.reverse.find? isParamNode).map Subtree.id) := by
    rw [← List.map_reverse]
    exact firstParam?_ok fun c hc => h.child c (List.mem_reverse.mp hc)
  rw [slot?, (hdecl.child d List.mem_cons_self).parent_eq]
  simp only [bind, Except.bind, hkind, hparent, h.children_eq, hfirst]
  rfl

/-! ### Visits -/

theorem visit_type {slot : Slot} {ty : TypeExpr} {scope : Scope} (hd : d.Reads (.type ty))
    (hslot : slot? t d.id = .ok (some slot)) : ∃ p : Position,
      declarationPass.visit t scope d.toShape
        = ⟨(messages scope slot ty).map (Finding.mk p), .ok ()⟩ := by
  obtain ⟨i, p, cs, rfl, -⟩ := reads_iff.mp hd
  refine ⟨p, ?_⟩
  rw [id_node] at hslot
  simp only [declarationPass, Check.shapeKind_node, Check.lift_ok_bind, Part.kind, id_toShape,
    id_node, hslot]
  exact Check.errors_node _

theorem visit_other (t : Tree) (scope : Scope) {part : Part} (hd : d.Reads part)
    (hpart : part.type? = none) :
    declarationPass.visit t scope d.toShape = pure () := by
  obtain ⟨i, p, cs, rfl, -⟩ := reads_iff.mp hd
  simp only [declarationPass, Check.shapeKind_node, Check.lift_ok_bind]
  cases part with
  | type ty => cases hpart
  | expr e => cases e <;> rfl
  | stmt s => cases s <;> rfl
  | _ => rfl

/-! ### Methods -/

theorem isParamNode_of_reads {part : Part} (hd : d.Reads part) :
    isParamNode d = part.param?.isSome := by
  rw [isParamNode, hd.kind_eq]
  cases part with
  | expr e => cases e <;> rfl
  | stmt s => cases s <;> rfl
  | _ => rfl

theorem find?_reverse_of_last {before ps after : List Subtree} {last : Subtree}
    (hafter : ∀ d ∈ after, isParamNode d = false) (hlast : ps.getLast? = some last)
    (hparam : isParamNode last = true) :
    (before ++ ps ++ after).reverse.find? isParamNode = some last := by
  obtain ⟨front, rfl⟩ := List.getLast?_eq_some_iff.mp hlast
  have hnone : after.reverse.find? isParamNode = none :=
    List.find?_eq_none.mpr fun d hd => by simp [hafter d (List.mem_reverse.mp hd)]
  simp [List.find?_append, hnone, hparam]

theorem getLast?_eq_getElem?_iff {ids : List NodeId} (hn : ids.Nodup) {n : Nat} {i : NodeId}
    (hi : ids[n]? = some i) : ids.getLast? = some i ↔ n + 1 = ids.length := by
  obtain ⟨hlt, rfl⟩ := List.getElem?_eq_some_iff.mp hi
  rw [List.getLast?_eq_getElem?, List.getElem?_eq_some_iff]
  constructor
  · rintro ⟨hlast, heq⟩
    have := (List.Nodup.getElem_inj_iff hn).mp heq
    omega
  · intro h
    exact ⟨by omega, by congr 1; omega⟩

/-- The visit is of a type written in a slot of the method. -/
def VisitsType (t : Tree) (scope : Scope) (m : MethodDecl) (slot : Slot) (ty : TypeExpr)
    (d : Subtree) : Prop :=
  m.Writes slot ty ∧ ∃ p : Position, declarationPass.visit t scope d.toShape
    = ⟨(messages scope slot ty).map (Finding.mk p), .ok ()⟩

theorem reads_decl {b : Subtree} {part : Part} {ty : TypeExpr} (hb : b.Reads part)
    (hparts : part.parts = [.type ty]) :
    ∃ i p d, b = node i part.kind p [d] ∧ d.Reads (.type ty) := by
  obtain ⟨i, p, cs, rfl, hcs⟩ := reads_iff.mp hb
  rw [hparts] at hcs
  obtain ⟨d, rfl, hd⟩ := forall₂_one hcs
  exact ⟨i, p, d, rfl, hd⟩

theorem within_type {b : Subtree} {ty : TypeExpr} (hb : b.Reads (.type ty)) (hd : d.Within b) :
    d = b := by
  obtain ⟨i, p, cs, rfl, hcs⟩ := reads_iff.mp hb
  cases hcs
  cases hd with
  | refl => rfl
  | child hc => cases hc

theorem type?_of_inside_stmt {part : Part} {s : Stmt} (h : part.Inside (.stmt s)) :
    part.type? = none := by
  have hsort : ∀ {part whole : Part}, part.Inside whole →
      (∃ s, whole = .stmt s) ∨ (∃ e, whole = .expr e) → part.type? = none := by
    intro part whole h
    induction h with
    | refl =>
      rintro (⟨s, rfl⟩ | ⟨e, rfl⟩) <;> rfl
    | part hc _ ih =>
      rintro (⟨s, rfl⟩ | ⟨e, rfl⟩)
      · refine ih ?_
        cases s with
        | block | ret =>
          obtain ⟨a, -, rfl⟩ := List.mem_map.mp hc
          simp
        | _ =>
          simp only [Part.parts, Stmt.parts, List.mem_cons, List.not_mem_nil, or_false] at hc
          rcases hc with rfl | rfl | rfl <;> simp
      · obtain ⟨a, -, rfl⟩ := List.mem_map.mp hc
        exact ih (.inr ⟨a, rfl⟩)
  exact hsort h (.inl ⟨s, rfl⟩)

section Method

variable {m : MethodDecl} {rs ps ls bs : List Subtree} (scope : Scope)

theorem visitsType_param
    (h : t.Holds above (node j (Part.method m).kind p (rs ++ ps ++ ls ++ bs)))
    (hn : (node j (Part.method m).kind p (rs ++ ps ++ ls ++ bs)).ids.Nodup)
    (hps : List.Forall₂ Reads ps (m.params.map .param))
    (hls : List.Forall₂ Reads ls (m.locals.map .varDecl))
    (hbs : List.Forall₂ Reads bs (m.body.map .stmt))
    {n : Nat} {decl : String × TypeExpr} (hdecl : m.params[n]? = some decl) {i : NodeId}
    {q : Position} (hi : ps[n]? = some (node i (.param decl.1) q [d]))
    (hd : d.Reads (.type decl.2)) :
    VisitsType t scope m (.param (n + 1 = m.params.length)) decl.2 d := by
  refine ⟨.param hdecl, visit_type hd ?_⟩
  have hmem : node i (.param decl.1) q [d] ∈ ps := List.mem_of_getElem? hi
  have hparam : node i (.param decl.1) q [d] ∈ rs ++ ps ++ ls ++ bs := by simp [hmem]
  rw [slot?_param h hparam]
  -- the parameter found first from the end is the last of the method
  have hafter : ∀ d ∈ ls ++ bs, isParamNode d = false := by
    intro d hd
    have hall := List.rel_append hls hbs
    obtain ⟨part, hpart, hread⟩ := forall₂_of_mem_left hall hd
    rw [isParamNode_of_reads hread]
    rcases List.mem_append.mp hpart with hpart | hpart <;>
    · obtain ⟨x, -, rfl⟩ := List.mem_map.mp hpart
      rfl
  obtain ⟨last, hlast⟩ : ∃ last, ps.getLast? = some last :=
    ⟨_, List.getLast?_eq_some_getLast (List.ne_nil_of_mem hmem)⟩
  have hparam : isParamNode last = true := by
    obtain ⟨part, hpart, hread⟩ := forall₂_of_mem_left hps (List.mem_of_getLast? hlast)
    rw [isParamNode_of_reads hread]
    obtain ⟨x, -, rfl⟩ := List.mem_map.mp hpart
    rfl
  have hids : (ps.map Subtree.id).Nodup := by
    rw [ids_node, List.nodup_cons] at hn
    have hnodup := nodup_map_id hn.2
    simp only [List.map_append] at hnodup
    exact ((hnodup.of_append_left).of_append_left).of_append_right
  have hget : (ps.map Subtree.id)[n]? = some i := by
    rw [List.getElem?_map, hi]
    rfl
  have hiff := getLast?_eq_getElem?_iff hids hget
  rw [List.getLast?_map, hlast, List.length_map, hps.length_eq, List.length_map] at hiff
  rw [List.append_assoc, find?_reverse_of_last hafter hlast hparam]
  simp only [hiff]

/-- **What is visited inside a method**: types in their slots, and nodes in which nothing is found.
-/
theorem method_visits {b : Subtree} (h : t.Holds above b) (hn : b.ids.Nodup)
    (hm : b.Reads (.method m)) (hd : d.Within b) :
    declarationPass.visit t scope d.toShape = pure () ∨
      ∃ slot ty, VisitsType t scope m slot ty d := by
  have hwhole := hm
  obtain ⟨j, p, cs, rfl, hcs⟩ := reads_iff.mp hm
  obtain ⟨front, bs, rfl, hfront, hbs⟩ := forall₂_append_inv hcs
  obtain ⟨front, ls, rfl, hfront, hls⟩ := forall₂_append_inv hfront
  obtain ⟨rs, ps, rfl, hrs, hps⟩ := forall₂_append_inv hfront
  cases hd with
  | refl => exact .inl (visit_other t scope hwhole rfl)
  | @child c _ _ _ _ hc hd =>
    simp only [List.mem_append] at hc
    rcases hc with ((hc | hc) | hc) | hc
    · obtain ⟨part, hpart, hread⟩ := forall₂_of_mem_left hrs hc
      obtain ⟨ty, hty, rfl⟩ := List.mem_map.mp hpart
      obtain rfl := within_type hread hd
      exact .inr ⟨.returned, ty, .returned (Option.mem_toList.mp hty),
        visit_type hread (slot?_returned h (by simp [hc]))⟩
    · obtain ⟨n, hlt, rfl⟩ := List.getElem_of_mem hc
      have hlen : n < m.params.length := by
        rwa [hps.length_eq, List.length_map] at hlt
      have hread := hps.get hlt (by rwa [List.length_map])
      simp only [List.get_eq_getElem, List.getElem_map] at hread
      obtain ⟨i, q, e, heq, he⟩ := reads_decl hread rfl
      rw [heq] at hread hd
      cases hd with
      | refl => exact .inl (visit_other t scope hread rfl)
      | child hc' hd =>
        cases List.mem_singleton.mp hc'
        obtain rfl := within_type he hd
        exact .inr ⟨_, _, visitsType_param scope h hn hps hls hbs (List.getElem?_eq_getElem hlen)
          (by rw [List.getElem?_eq_getElem hlt, heq]; rfl) he⟩
    · obtain ⟨part, hpart, hread⟩ := forall₂_of_mem_left hls hc
      obtain ⟨decl, hdecl, rfl⟩ := List.mem_map.mp hpart
      obtain ⟨i, q, e, rfl, he⟩ := reads_decl hread rfl
      cases hd with
      | refl => exact .inl (visit_other t scope hread rfl)
      | child hc' hd =>
        cases List.mem_singleton.mp hc'
        obtain rfl := within_type he hd
        exact .inr ⟨.localVar, decl.2, .localVar hdecl,
          visit_type he (slot?_varDecl h (by simpa [Part.kind] using Or.inr (Or.inr (Or.inl hc))))⟩
    · obtain ⟨part, hpart, hread⟩ := forall₂_of_mem_left hbs hc
      obtain ⟨s, -, rfl⟩ := List.mem_map.mp hpart
      obtain ⟨inner, hinner, hin⟩ := hread.within hd
      exact .inl (visit_other t scope hinner (type?_of_inside_stmt hin))

/-- Every type written in a method is visited. -/
theorem exists_visit {b : Subtree} (h : t.Holds above b) (hn : b.ids.Nodup)
    (hm : b.Reads (.method m)) {slot : Slot} {ty : TypeExpr} (hw : m.Writes slot ty) :
    ∃ d : Subtree, d.Within b ∧ VisitsType t scope m slot ty d := by
  obtain ⟨j, p, cs, rfl, hcs⟩ := reads_iff.mp hm
  obtain ⟨front, bs, rfl, hfront, hbs⟩ := forall₂_append_inv hcs
  obtain ⟨front, ls, rfl, hfront, hls⟩ := forall₂_append_inv hfront
  obtain ⟨rs, ps, rfl, hrs, hps⟩ := forall₂_append_inv hfront
  cases hw with
  | returned hty =>
    rw [hty] at hrs
    obtain ⟨d, rfl, hd⟩ := forall₂_one hrs
    exact ⟨d, .child (by simp) (.refl d), .returned hty, visit_type hd (slot?_returned h (by simp))⟩
  | @param n decl hdecl =>
    obtain ⟨hlen, rfl⟩ := List.getElem?_eq_some_iff.mp hdecl
    have hlt : n < ps.length := by rwa [hps.length_eq, List.length_map]
    have hread := hps.get hlt (by rwa [List.length_map])
    simp only [List.get_eq_getElem, List.getElem_map] at hread
    obtain ⟨i, q, e, heq, he⟩ := reads_decl hread rfl
    have hmem : node i (.param m.params[n].1) q [e] ∈ rs ++ ps ++ ls ++ bs := by
      simp [show node i (.param m.params[n].1) q [e] ∈ ps from heq ▸ List.getElem_mem hlt]
    have hps? : ps[n]? = some (node i (.param m.params[n].1) q [e]) := by
      rw [List.getElem?_eq_getElem hlt, heq]
      rfl
    exact ⟨e, .child hmem (.child List.mem_cons_self (.refl e)),
      visitsType_param scope h hn hps hls hbs hdecl hps? he⟩
  | @localVar decl hdecl =>
    obtain ⟨c, hc, hread⟩ := forall₂_of_mem_right hls (List.mem_map_of_mem hdecl)
    obtain ⟨i, q, e, rfl, he⟩ := reads_decl hread rfl
    have hmem : node i (.varDecl decl.1) q [e] ∈ rs ++ ps ++ ls ++ bs := by
      simp [show node i (.varDecl decl.1) q [e] ∈ ls from hc]
    exact ⟨e, .child hmem (.child List.mem_cons_self (.refl e)), .localVar hdecl,
      visit_type he (slot?_varDecl h hmem)⟩

end Method

section Field

variable {name : String} {superclass : Option String} {f : Subtree} {decl : String × TypeExpr}

/-- **What is visited inside a field**: its type, and the field itself, in which nothing is found.
-/
theorem field_visits (h : t.Holds above (node j (.classDecl name superclass) p cs)) (hf : f ∈ cs)
    (hread : f.Reads (.varDecl decl)) (hd : d.Within f) :
    declarationPass.visit t scope d.toShape = pure () ∨ ∃ p : Position,
      declarationPass.visit t scope d.toShape
        = ⟨(messages scope .field decl.2).map (Finding.mk p), .ok ()⟩ := by
  obtain ⟨i, q, e, rfl, he⟩ := reads_decl hread rfl
  cases hd with
  | refl => exact .inl (visit_other t scope hread rfl)
  | child hc hd =>
    cases List.mem_singleton.mp hc
    obtain rfl := within_type he hd
    exact .inr (visit_type he (slot?_varDecl h hf))

theorem exists_field_visit (h : t.Holds above (node j (.classDecl name superclass) p cs))
    (hf : f ∈ cs) (hread : f.Reads (.varDecl decl)) :
    ∃ d : Subtree, d.Within f ∧ ∃ p : Position, declarationPass.visit t scope d.toShape
      = ⟨(messages scope .field decl.2).map (Finding.mk p), .ok ()⟩ := by
  obtain ⟨i, q, e, rfl, he⟩ := reads_decl hread rfl
  exact ⟨e, .child List.mem_cons_self (.refl e), visit_type he (slot?_varDecl h hf)⟩

end Field

end WrittenTypes

end Classlet
