import Classlet.Proofs.Analysis.Acceptance
import Classlet.Proofs.Symbols.Places
import Classlet.Proofs.Syntax.Splicing

/-!
# The visits of a walk

What a walk over the tree of a program with one class comes down to, whatever the pass: a list of
nodes, each with the method in whose scope it is visited.  The nodes are those of the pre-order,
once each; the method is the one the node stands in, told by its place and not by its name.

Main statement: `Tree.Pictures.visits`.
-/

namespace Classlet

open Subtree

/-- A node that is visited, and the method around it. -/
abbrev Call := NodeId × Option Signature

/-- The visit of a node in the scope of the method around it. -/
def Pass.call (pass : Pass) (t : Tree) (table : SymbolTable) (policy : ExternalPolicy) (q : Call) :
    Check Unit :=
  pass.visit t ⟨table, q.2, policy⟩ (t.shape q.1)

/-- The walks over the tree of a unit with one class visit these nodes in these scopes: every node
of the pre-order once, those inside the method of a number with the signature of that number, and
all others without a method. -/
structure Tree.Visits (t : Tree) (imports : List String) (c : ClassDecl) (table : SymbolTable)
    (calls : List Call) : Prop where
  ids_eq : t.descendants t.root = .ok (calls.map Prod.fst)
  nodup : (calls.map Prod.fst).Nodup
  inside : ∀ k m, c.methods[k]? = some m → ∃ id s,
    t.nodeAt [imports.length, c.fields.length + k] = .ok id ∧
    t.kind id = .ok (.methodDecl m.name m.isPublic m.isStatic) ∧
    table.signatures[k]? = some s ∧ ∀ q ∈ calls, t.Contains id q.1 → q.2 = some s
  outside : ∀ q ∈ calls, (∀ k id, k < c.methods.length →
    t.nodeAt [imports.length, c.fields.length + k] = .ok id → ¬ t.Contains id q.1) → q.2 = none
  walk_eq : ∀ (pass : Pass) policy, pass.walk t (.ofTable table policy) (t.shape t.root)
    = .inTurn (calls.map (pass.call t table policy))

/-! ### From subtrees to nodes -/

/-- The node that is visited. -/
def Visit.call (v : Visit) : Call := (v.1.id, v.2)

theorem Visit.map_fst_call (visits : List Visit) :
    (visits.map call).map Prod.fst = (visits.map Prod.fst).map Subtree.id := by
  rw [List.map_map, List.map_map]
  rfl

section Calls

variable {root cls : Subtree} {is fs ms : List Subtree} {signatures : List Signature} {v : Visit}

/-- A node inside a method is visited in the scope of the signature in the place of the method. -/
theorem Subtree.snd_eq_of_mem_visitsOfUnits
    (hn : (((visitsOfUnits root cls is fs ms signatures).map Visit.call).map Prod.fst).Nodup)
    {k : Nat} {s : Signature} {d : Subtree} (hs : signatures[k]? = some s) (hd : ms[k]? = some d)
    (hv : v ∈ visitsOfUnits root cls is fs ms signatures) (hin : v.1.id ∈ d.ids) :
    v.2 = some s := by
  rw [← map_id_subtrees] at hin
  obtain ⟨e, he, hid⟩ := List.mem_map.mp hin
  have hzip : (s, d) ∈ signatures.zip ms :=
    List.mem_iff_getElem?.mpr ⟨k, List.getElem?_zip_eq_some.mpr ⟨hs, hd⟩⟩
  have hother : (e, some s) ∈ visitsOfUnits root cls is fs ms signatures :=
    List.mem_append_right _ (List.mem_flatMap.mpr ⟨(s, d), hzip,
      mem_visits.mpr ⟨⟨d, List.mem_singleton_self d, mem_subtrees.mp he⟩, rfl⟩⟩)
  exact congrArg Prod.snd (List.inj_on_of_nodup_map hn (List.mem_map_of_mem hv)
    (List.mem_map_of_mem hother) hid.symm)

theorem Subtree.snd_eq_none_of_mem_visitsOfUnits
    (hv : v ∈ visitsOfUnits root cls is fs ms signatures) (hout : ∀ d ∈ ms, v.1.id ∉ d.ids) :
    v.2 = none := by
  rw [visitsOfUnits, List.mem_append, List.mem_append, List.mem_cons, List.mem_cons, mem_visits,
    mem_visits] at hv
  rcases hv with ((rfl | ⟨-, hnone⟩) | rfl | ⟨-, hnone⟩) | hv
  · rfl
  · exact hnone
  · rfl
  · exact hnone
  · obtain ⟨⟨s, d⟩, hzip, hv⟩ := List.mem_flatMap.mp hv
    obtain ⟨⟨e, he, hwithin⟩, -⟩ := mem_visits.mp hv
    cases List.mem_singleton.mp he
    exact absurd (hwithin.ids_subset v.1.id_mem_ids) (hout d (List.of_mem_zip hzip).2)

end Calls

/-! ### A whole tree -/

section Units

variable {t : Tree} {imports : List String} {c : ClassDecl} {table : SymbolTable}

/-- **What walks visit.**  Over the tree of a program with one class, every pass visits the nodes of
the pre-order, each method's in the scope of the signature in its place, though there be others of
the same name. -/
theorem Tree.Pictures.visits {b : Subtree} (h : t.Pictures ⟨imports, [c]⟩ b)
    (hnames : NamedAlike table.signatures c.methods) :
    ∃ calls, t.Visits imports c table calls ∧ calls.map Prod.fst = b.ids := by
  obtain ⟨r, pos, is, i, p, fs, ms, rfl, his, hfs, hms⟩ := h.exists_units
  have hmslen : ms.length = c.methods.length := by rw [hms.length_eq, List.length_map]
  set cls := Subtree.node i (.classDecl c.name c.superclass) p (fs ++ ms)
  set b := Subtree.node r .program pos (is ++ [cls])
  have hsubtrees : (visitsOfUnits b cls is fs ms table.signatures).map Prod.fst = b.subtrees :=
    map_fst_visitsOfUnits (hnames.length_eq.trans hmslen.symm)
  have hids : ((visitsOfUnits b cls is fs ms table.signatures).map Visit.call).map Prod.fst
      = b.ids := by
    rw [Visit.map_fst_call, hsubtrees, map_id_subtrees]
  have hn := h.nodup
  rw [← hids] at hn
  -- the tree has the shape of every subtree at its node
  have hshape : ∀ v ∈ visitsOfUnits b cls is fs ms table.signatures,
      t.shape v.1.id = v.1.toShape := by
    intro v hv
    have hmem := List.mem_map_of_mem (f := Prod.fst) hv
    rw [hsubtrees, mem_subtrees] at hmem
    obtain ⟨_, hheld⟩ := h.holds.within hmem
    exact hheld.shape_eq (hmem.nodup h.nodup)
  obtain ⟨-, hat⟩ := h.holdsAt_firstClass hfs
  have hislen : is.length = imports.length := by rw [his.length_eq, List.length_map]
  rw [hislen] at hat
  have hcontains : ∀ {k : Nat} {d : Subtree}, ms[k]? = some d →
      ∀ j, t.Contains d.id j ↔ j ∈ d.ids := by
    intro k d hd j
    obtain ⟨-, parent, hheld⟩ := hat k d hd
    have hmem : d ∈ fs ++ ms := List.mem_append_right _ (List.mem_of_getElem? hd)
    have hdn := nodup_child (nodup_child h.nodup (List.mem_append_right is List.mem_cons_self)) hmem
    rw [Tree.Contains, hheld.descendants_eq hdn]
    simp
  refine ⟨_, ⟨?_, hn, fun k m hm => ?_, fun q hq hout => ?_, fun pass policy => ?_⟩, hids⟩
  · rw [hids, ← h.root, h.holds.descendants_eq h.nodup]
  · obtain ⟨-, hnone⟩ | ⟨d, m', hd, hm', hread⟩ :=
      forall₂_getElem? (List.forall₂_map_right_iff.mp hms) k
    · cases hm.symm.trans hnone
    obtain ⟨-, hnone⟩ | ⟨s, m'', hs, -, -⟩ := forall₂_getElem? hnames k
    · cases hm.symm.trans hnone
    cases hm.symm.trans hm'
    obtain ⟨hpath, parent, hheld⟩ := hat k d hd
    refine ⟨d.id, s, hpath, by rw [hheld.kind_eq, hread.kind_eq]; rfl, hs, fun q hq hin => ?_⟩
    obtain ⟨v, hv, rfl⟩ := List.mem_map.mp hq
    exact snd_eq_of_mem_visitsOfUnits hn hs hd hv ((hcontains hd v.1.id).mp hin)
  · obtain ⟨v, hv, rfl⟩ := List.mem_map.mp hq
    refine snd_eq_none_of_mem_visitsOfUnits hv fun d hd hin => ?_
    obtain ⟨k, hk⟩ := List.mem_iff_getElem?.mp hd
    have hlt : k < c.methods.length := hmslen ▸ (List.getElem?_eq_some_iff.mp hk).1
    exact hout k d.id hlt (hat k d hk).1 ((hcontains hk v.1.id).mpr hin)
  · have hroot : t.shape t.root = b.toShape := by
      rw [← h.root, h.holds.shape_eq h.nodup]
    rw [Pass.walk_eq, hroot, Pass.steps_units his hfs hms hnames, List.map_map]
    refine congrArg Check.inTurn (List.map_congr_left fun v hv => ?_)
    rw [Function.comp_apply, Pass.call, Visit.call, hshape v hv]

end Units

end Classlet
