import OpTree.Proofs.Document.Grammar
import OpTree.Proofs.Graph.Placement

/-!
# The store of a document

Reading a document into a store comes to the same as decoding it and placing the expression
(`Form.buildAt_eq`). So the two readers build the same store wherever no array stands for a node
(`Form.build_mixed`).

A node ends when all that is in it has been read. Nodes are listed in the order in which they end
(`EndsBefore`), each told by the path that leads to it, and `IsPostorder` says that a store holds
them so: at each address there is the node at that place of the list, and its operands are the
addresses of the nodes one step further down. As the paths are different, questions about addresses
become questions about paths. The last step of a path tells the one place in which the node is an
operand (`IsPostorder.existsUnique_hasOperand`), and the empty path ends last.

Main statement: `Document.exists_isPostorder_of_build`.
-/

namespace OpTree.Document

open List Store

variable {form : Form} {path : List Step} {doc item : Json} {code : Operator}
  {operands : List (Step × Json)} {defect : Defect} {s : Scalar} {e : Expr Unit}

/-! ### Reading in one pass -/

/-- Reading a document into a store is decoding it and placing the expression. It is refused for the
same defect. -/
theorem Form.buildAt_eq (form : Form) (path : List Step) (doc : Json) (store : Store) :
    form.buildAt path doc store = (Expr.placeRoot · store) <$> form.decodeAt path doc := by
  induction path, doc using Form.decodeAt_induction form generalizing store with
  | defect path doc defect hview =>
    rw [decodeAt_of_defect hview, buildAt_eq_view, hview]
    rfl
  | literal path doc s hview =>
    rw [decodeAt_of_literal hview, buildAt_eq_view, hview]
    rfl
  | op path doc code operands hview ih =>
    have hoperands : ∀ o ∈ operands, ∀ store, form.buildAt (path ++ [o.1]) o.2 store
        = (Expr.placeRoot · store) <$> form.decodeAt (path ++ [o.1]) o.2 :=
      fun o ho store => ih o.1 o.2 ho store
    rw [decodeAt_op hview, buildAt_eq_view, hview]
    dsimp only
    rw [Expr.mapM_place_op hoperands () code store]
    cases operands.mapM fun o => form.decodeAt (path ++ [o.1]) o.2 <;> rfl

/-- Building a document is decoding it and placing the expression in an empty store. -/
theorem Form.build_eq (form : Form) (doc : Json) :
    form.build doc = (form.decode doc).map (Expr.placeRoot · #[]) :=
  form.buildAt_eq [] doc #[]

/-- Where no array stands for a node, the two readers build the same store, or stop at the same node
for the same defect. -/
theorem Form.build_mixed (h : ∀ items, ¬ IsNode doc (.arr items)) :
    Form.mixed.build doc = (Form.tree.build doc).mapError ({ · with form := .mixed }) := by
  rw [build_eq, build_eq, decode, decode, decodeAt_mixed h]
  cases Form.tree.decodeAt [] doc <;> rfl

/-- Whatever the tree reader builds, the mixed reader builds too. -/
theorem Form.build_mixed_of_build_tree {built : NodeId × Store}
    (h : Form.tree.build doc = .ok built) : Form.mixed.build doc = .ok built := by
  rw [build_eq] at h ⊢
  cases hdecode : Form.tree.decode doc with
  | error r => rw [hdecode] at h; cases h
  | ok e => rwa [decode_mixed_of_decode_tree hdecode, ← hdecode]

/-! ### Document order by the ends of nodes -/

/-- The order in which nodes end: all that is in a node ends before the node, and what is in an
operand ends before the operands to the right of it do. -/
inductive EndsBefore : List Step → List Step → Prop
  | inside {step path} : EndsBefore (step :: path) []
  | left {step step' path path'} : step.place < step'.place →
      EndsBefore (step :: path) (step' :: path')
  | same {step path path'} : EndsBefore path path' → EndsBefore (step :: path) (step :: path')

/-- No node ends before itself. -/
theorem EndsBefore.ne {path path' : List Step} (h : EndsBefore path path') : path ≠ path' := by
  induction h with
  | inside => exact cons_ne_nil _ _
  | left hplace =>
    intro heq
    cases heq
    exact Nat.lt_irrefl _ hplace
  | same _ ih => exact fun heq => ih (cons.inj heq).2

theorem follow?_cons (step : Step) (path : List Step) (doc : Json) :
    follow? (step :: path) doc = step.follow? doc >>= follow? path :=
  foldlM_cons

theorem follow?_singleton (step : Step) (doc : Json) : follow? [step] doc = step.follow? doc := by
  rw [follow?_cons]
  exact bind_pure _

theorem follow?_append (path path' : List Step) (doc : Json) :
    follow? (path ++ path') doc = follow? path doc >>= follow? path' :=
  foldlM_append

/-- A scalar has no operands. -/
theorem children_of_scalar (h : Scalar.ofJson? doc = some s) : children doc = [] := by
  cases doc with
  | arr | obj => cases h
  | _ => rfl

/-- The steps from a node to its operands are different. -/
theorem index_eq_of_step_eq {node : Json} {o o' : Step × Json} {k k' : Nat}
    (ho : (children node)[k]? = some o) (ho' : (children node)[k']? = some o')
    (hstep : o.1 = o'.1) : k = k' := by
  have hnodup : ((children node).map Prod.fst).Nodup := by
    refine pairwise_map.2 ((pairwise_children node).imp fun hplace heq => ?_)
    rw [heq] at hplace
    exact Nat.lt_irrefl _ hplace
  have hlt : k < ((children node).map Prod.fst).length := by
    rw [length_map]
    exact (List.getElem?_eq_some_iff.1 ho).1
  refine (getElem?_inj hlt hnodup).1 ?_
  rw [getElem?_map, getElem?_map, ho, ho']
  exact congrArg some hstep

/-- A path leads to the root, or into one of its operands. -/
theorem isSome_follow?_iff : (follow? path doc).isSome ↔
    path = [] ∨ ∃ o ∈ children doc, ∃ rest, path = o.1 :: rest ∧ (follow? rest o.2).isSome := by
  cases path with
  | nil => simp [follow?]
  | cons step rest =>
    rw [follow?_cons]
    constructor
    · intro h
      obtain ⟨node, hnode⟩ := Option.isSome_iff_exists.1 h
      obtain ⟨item, hstep, hitem⟩ := Option.bind_eq_some_iff.1 hnode
      exact .inr ⟨(step, item), mem_children.2 hstep, rest, rfl,
        Option.isSome_iff_exists.2 ⟨node, hitem⟩⟩
    · rintro (h | ⟨o, ho, _, h, hrest⟩)
      · cases h
      · cases h
        rw [mem_children.1 ho]
        exact hrest

/-! ### What a store holds of a document -/

/-- The node is what the path leads to: the literal, or the operator over the addresses of its
operands. -/
inductive Represents (address : List Step → NodeId → Prop) (doc : Json) (path : List Step) :
    Node → Prop
  | literal {item : Json} {s : Scalar} : follow? path doc = some item →
      Scalar.ofJson? item = some s → Represents address doc path (.lit s)
  | op {item : Json} {ref : Reference} {code : Operator} {operands : List NodeId} :
      follow? path doc = some item → Refers item ref → ref.Means code →
      Forall₂ (fun o id => address (path ++ [o.1]) id) (children item) operands →
      Represents address doc path (.op code operands)

/-- The store holds the nodes of the document and nothing else, in the order in which they end: at
each address there is the node that the path of the same place leads to. -/
structure IsPostorder (doc : Json) (store : Store) (paths : List (List Step)) : Prop where
  mem_iff : ∀ path, path ∈ paths ↔ (follow? path doc).isSome
  pairwise : paths.Pairwise EndsBefore
  length_eq : paths.length = store.size
  represents : ∀ path (id : NodeId), paths[id.index]? = some path →
    ∃ node, store[id.index]? = some node ∧
      Represents (fun path id => paths[id.index]? = some path) doc path node

section

variable {address address' : List Step → NodeId → Prop} {node : Node} {o : Step × Json}

private theorem Represents.mono (h : Represents address doc path node)
    (haddress : ∀ path id, address path id → address' path id) :
    Represents address' doc path node := by
  cases h with
  | literal hitem hs => exact .literal hitem hs
  | op hitem href hcode hoperands =>
    exact .op hitem href hcode (hoperands.imp fun o id => haddress _ id)

/-- What is in an operand is in the whole. -/
private theorem Represents.in_operand (h : Represents address o.2 path node)
    (ho : o.1.follow? doc = some o.2) (haddress : ∀ path id, address path id →
      address' (o.1 :: path) id) : Represents address' doc (o.1 :: path) node := by
  have hfollow : follow? (o.1 :: path) doc = follow? path o.2 := by
    rw [follow?_cons, ho]
    rfl
  cases h with
  | literal hitem hs => exact .literal (hfollow.trans hitem) hs
  | op hitem href hcode hoperands =>
    exact .op (hfollow.trans hitem) href hcode (hoperands.imp fun o id => haddress _ id)

/-- The paths are given addresses from `base` on, one after another. -/
private def Numbers (paths : List (List Step)) (base : Nat) (path : List Step) (id : NodeId) :
    Prop :=
  (path, id.index) ∈ paths.zipIdx base

/-- From `base` on, the store holds what the paths lead to, and nothing else. -/
private structure Lies (doc : Json) (store : Store) (paths : List (List Step)) (base : Nat) :
    Prop where
  pairwise : paths.Pairwise EndsBefore
  size_eq : store.size = base + paths.length
  represents : ∀ path id, Numbers paths base path id → ∃ node, store[id.index]? = some node ∧
    Represents (Numbers paths base) doc path node

/-- Wherever the expression is placed, it lies there as the document does. -/
private def IsPlacedAs (e : Expr Unit) (doc : Json) : Prop :=
  ∀ store : Store, ∃ paths, (∀ path, path ∈ paths ↔ (follow? path doc).isSome) ∧
    Lies doc (e.place store).2 paths store.size ∧
    Numbers paths store.size [] (e.place store).1.label

variable {paths paths' : List (List Step)} {base : Nat} {id : NodeId}

private theorem numbers_append : Numbers (paths ++ paths') base path id ↔
    Numbers paths base path id ∨ Numbers paths' (base + paths.length) path id := by
  rw [Numbers, zipIdx_append, mem_append]
  rfl

private theorem numbers_map_cons {step : Step} : Numbers (paths.map (step :: ·)) base path id ↔
    ∃ rest, path = step :: rest ∧ Numbers paths base rest id := by
  rw [Numbers, zipIdx_map, mem_map]
  constructor
  · rintro ⟨⟨rest, i⟩, hrest, heq⟩
    cases heq
    exact ⟨rest, rfl, hrest⟩
  · rintro ⟨rest, rfl, hrest⟩
    exact ⟨(rest, id.index), hrest, rfl⟩

/-- What lies there of an operand and of the operands to the right of it is what lies there of
all. -/
private theorem Lies.append {mid later : Store} (hfirst : Lies o.2 mid paths base)
    (hrest : Lies doc later paths' mid.size) (hgrows : Grows mid later)
    (ho : o.1.follow? doc = some o.2)
    (hplace : ∀ path ∈ paths', ∃ step rest, path = step :: rest ∧ o.1.place < step.place) :
    Lies doc later (paths.map (o.1 :: ·) ++ paths') base := by
  have hbase : mid.size = base + (paths.map (o.1 :: ·)).length := by
    rw [length_map]
    exact hfirst.size_eq
  refine ⟨?_, ?_, fun path id hid => ?_⟩
  · refine pairwise_append.2 ⟨pairwise_map.2 (hfirst.pairwise.imp .same), hrest.pairwise, ?_⟩
    intro path hpath path' hpath'
    obtain ⟨rest, -, rfl⟩ := mem_map.1 hpath
    obtain ⟨step, rest', rfl, hlt⟩ := hplace path' hpath'
    exact .left hlt
  · rw [length_append, ← Nat.add_assoc, ← hbase]
    exact hrest.size_eq
  rcases numbers_append.1 hid with hid | hid
  · obtain ⟨rest, rfl, hrestId⟩ := numbers_map_cons.1 hid
    obtain ⟨node, hnode, hrepresents⟩ := hfirst.represents rest id hrestId
    exact ⟨node, hgrows _ _ hnode, hrepresents.in_operand ho fun path id hid =>
      numbers_append.2 (.inl (numbers_map_cons.2 ⟨path, rfl, hid⟩))⟩
  · rw [← hbase] at hid
    obtain ⟨node, hnode, hrepresents⟩ := hrest.represents path id hid
    exact ⟨node, hnode, hrepresents.mono fun path id hid =>
      numbers_append.2 (.inr (hbase ▸ hid))⟩

/-- Operands that are placed one after another lie there as they stand in the document. -/
private theorem exists_lies_of_operands {os : List (Step × Json)} {es : List (Expr Unit)}
    (hes : Forall₂ (fun o e => IsPlacedAs e o.2) os es)
    (hos : ∀ o ∈ os, o.1.follow? doc = some o.2)
    (hplaces : os.Pairwise fun o o' => o.1.place < o'.1.place) (store : Store) :
    ∃ paths, (∀ path, path ∈ paths ↔
        ∃ o ∈ os, ∃ rest, path = o.1 :: rest ∧ (follow? rest o.2).isSome) ∧
      Lies doc (Expr.placeAll es store).2 paths store.size ∧
      Forall₂ (fun o x => Numbers paths store.size [o.1] x.label) os
        (Expr.placeAll es store).1 := by
  induction hes generalizing store with
  | nil => exact ⟨[], by simp, ⟨.nil, rfl, fun path id hid => by cases hid⟩, .nil⟩
  | @cons o e os es he hes ih =>
    rw [forall_mem_cons] at hos
    obtain ⟨hbefore, hplaces⟩ := pairwise_cons.1 hplaces
    obtain ⟨first, hfirst, hlies, hroot⟩ := he store
    obtain ⟨rest, hrest, hrestLies, hroots⟩ := ih hos.2 hplaces (e.place store).2
    refine ⟨first.map (o.1 :: ·) ++ rest, fun path => ?_, ?_, .cons ?_ ?_⟩
    · rw [mem_append, mem_map, hrest, exists_mem_cons_iff]
      refine or_congr_left ⟨?_, ?_⟩
      · rintro ⟨path, hpath, rfl⟩
        exact ⟨path, rfl, (hfirst path).1 hpath⟩
      · rintro ⟨path, rfl, hpath⟩
        exact ⟨path, (hfirst path).2 hpath, rfl⟩
    · refine hlies.append hrestLies (Expr.grows_placeAll es _) hos.1 fun path hpath => ?_
      obtain ⟨o', ho', path, rfl, -⟩ := (hrest path).1 hpath
      exact ⟨o'.1, path, rfl, hbefore o' ho'⟩
    · exact numbers_append.2 (.inl (numbers_map_cons.2 ⟨[], rfl, hroot⟩))
    · refine hroots.imp fun o x hx => numbers_append.2 (.inr ?_)
      rw [length_map, ← hlies.size_eq]
      exact hx

/-- A node that is added after what lies there of its operands. -/
private theorem Lies.push (h : Lies doc store paths base) (hpaths : ∀ path ∈ paths, path ≠ [])
    (hnode : Represents (Numbers (paths ++ [[]]) base) doc [] node) :
    Lies doc (store.push node) (paths ++ [[]]) base := by
  refine ⟨?_, ?_, fun path id hid => ?_⟩
  · refine pairwise_append.2 ⟨h.pairwise, pairwise_singleton _ _, fun path hpath path' hpath' => ?_⟩
    rw [mem_singleton.1 hpath']
    obtain ⟨step, rest, rfl⟩ := exists_cons_of_ne_nil (hpaths path hpath)
    exact .inside
  · rw [Array.size_push, h.size_eq, length_append, length_singleton, Nat.add_assoc]
  rcases numbers_append.1 hid with hid | hid
  · obtain ⟨node', hnode', hrepresents⟩ := h.represents path id hid
    exact ⟨node', grows_push store node _ _ hnode', hrepresents.mono fun path id hid =>
      numbers_append.2 (.inl hid)⟩
  · rw [Numbers, zipIdx_singleton, mem_singleton, ← h.size_eq, Prod.mk.injEq] at hid
    obtain ⟨rfl, hlast⟩ := hid
    exact ⟨node, by rw [hlast, Array.getElem?_push_size], hnode⟩

/-- A document lies in a store as its expression is placed there. The induction is on the
expression. -/
private theorem isPlacedAs_of_denotes (h : Denotes doc e) : IsPlacedAs e doc := by
  intro store
  induction e generalizing doc store with
  | lit a s =>
    cases h with
    | literal hs =>
      have hempty : Lies doc store [] store.size := ⟨.nil, rfl, fun path id hid => by cases hid⟩
      refine ⟨[[]], fun path => ?_, hempty.push (forall_mem_nil _) (.literal rfl hs), ?_⟩
      · rw [isSome_follow?_iff, children_of_scalar hs]
        simp
      · exact mem_singleton_self _
  | op a code es ih =>
    cases h with
    | op href hcode hitems hdenotes =>
      have hoperands : Forall₂ (fun o e => IsPlacedAs e o.2) (children doc) es := by
        rw [← hitems.map_children, forall₂_map_left_iff] at hdenotes
        have hboth := (forall₂_and_left (p := fun e => ∀ doc, Denotes doc e → IsPlacedAs e doc)
          es (children doc)).2 ⟨fun e he doc hdoc store => ih e he hdoc store, hdenotes.flip⟩
        exact (hboth.imp fun e o h => h.1 o.2 h.2).flip
      obtain ⟨paths, hpaths, hlies, hroots⟩ := exists_lies_of_operands hoperands
        (fun o => mem_children.1) (pairwise_children doc) store
      refine ⟨paths ++ [[]], fun path => ?_, hlies.push ?_ (.op rfl href hcode ?_), ?_⟩
      · rw [isSome_follow?_iff, mem_append, mem_singleton, hpaths, or_comm]
      · rintro _ hpath rfl
        obtain ⟨o, -, rest, h, -⟩ := (hpaths []).1 hpath
        cases h
      · rw [forall₂_map_right_iff]
        exact hroots.imp fun o x hx => numbers_append.2 (.inl hx)
      · refine numbers_append.2 (.inr ?_)
        rw [Numbers, zipIdx_singleton, mem_singleton, ← hlies.size_eq]
        rfl

end

theorem exists_isPostorder_of_denotes (h : Denotes doc e) :
    ∃ paths, IsPostorder doc (e.place #[]).2 paths := by
  obtain ⟨paths, hmem, hlies, -⟩ := isPlacedAs_of_denotes h #[]
  have hnumbers (path : List Step) (id : NodeId) :
      Numbers paths 0 path id ↔ paths[id.index]? = some path := mk_mem_zipIdx_iff_getElem?
  refine ⟨paths, hmem, hlies.pairwise, ?_, fun path id hid => ?_⟩
  · rw [hlies.size_eq]
    exact (Nat.zero_add _).symm
  · obtain ⟨node, hnode, hrepresents⟩ := hlies.represents path id ((hnumbers path id).2 hid)
    exact ⟨node, hnode, hrepresents.mono fun path id => (hnumbers path id).1⟩

/-! ### What follows from the order -/

/-- What stands at a place of one list is related to what stands at the same place of the other. -/
private theorem exists_getElem?_of_forall₂ {α β : Type} {R : α → β → Prop} {as : List α}
    {bs : List β} (h : Forall₂ R as bs) {i : Nat} {a : α} (ha : as[i]? = some a) :
    ∃ b, bs[i]? = some b ∧ R a b := by
  induction h generalizing i with
  | nil => cases ha
  | @cons a' b as bs hR _ ih =>
    cases i with
    | zero =>
      cases ha
      exact ⟨b, rfl, hR⟩
    | succ i => exact ih ha

namespace IsPostorder

variable {store : Store} {paths : List (List Step)} {id : NodeId} {i j : Nat}

theorem index_inj (h : IsPostorder doc store paths) (hi : paths[i]? = some path)
    (hj : paths[j]? = some path) : i = j := by
  have hnodup : paths.Nodup := h.pairwise.imp EndsBefore.ne
  have hlt : i < paths.length := (List.getElem?_eq_some_iff.1 hi).1
  exact (getElem?_inj hlt hnodup).1 (hi.trans hj.symm)

/-- The root is the last node, as nothing ends after it. -/
theorem getElem?_eq_nil_iff (h : IsPostorder doc store paths) :
    paths[i]? = some [] ↔ i + 1 = store.size := by
  have hlast {j : Nat} (hj : paths[j]? = some []) : j + 1 = store.size := by
    obtain ⟨hlt, hroot⟩ := List.getElem?_eq_some_iff.1 hj
    have hle : ¬ j + 1 < paths.length := by
      intro hnext
      have hbefore := pairwise_iff_getElem.1 h.pairwise j (j + 1) hlt hnext (Nat.lt_succ_self j)
      rw [hroot] at hbefore
      cases hbefore
    rw [← h.length_eq]
    omega
  refine ⟨hlast, fun hi => ?_⟩
  obtain ⟨j, hj⟩ := mem_iff_getElem?.1 ((h.mem_iff []).2 rfl)
  have hsize := hlast hj
  obtain rfl : i = j := by omega
  exact hj

/-- The operands of a node of the store are the operands of the node of the document, in the same
order. -/
theorem hasOperand_iff (h : IsPostorder doc store paths) {place : NodeId × Nat} :
    store.HasOperand place id ↔ ∃ path item o, paths[place.1.index]? = some path ∧
      follow? path doc = some item ∧ (children item)[place.2]? = some o ∧
      paths[id.index]? = some (path ++ [o.1]) := by
  constructor
  · rintro ⟨code, operands, hnode, hid⟩
    have hlt : place.1.index < paths.length := h.length_eq ▸ lt_size_of_getElem? hnode
    obtain ⟨path, hpath⟩ : ∃ path, paths[place.1.index]? = some path :=
      ⟨_, getElem?_eq_getElem hlt⟩
    obtain ⟨node, hnode', hrepresents⟩ := h.represents path place.1 hpath
    cases hnode'.symm.trans hnode
    cases hrepresents with
    | op hitem _ _ hoperands =>
      obtain ⟨o, ho, haddress⟩ := exists_getElem?_of_forall₂ hoperands.flip hid
      exact ⟨path, _, o, hpath, hitem, ho, haddress⟩
  · rintro ⟨path, item, o, hpath, hitem, ho, hid⟩
    obtain ⟨node, hnode, hrepresents⟩ := h.represents path place.1 hpath
    cases hrepresents with
    | literal hitem' hs =>
      cases hitem.symm.trans hitem'
      rw [children_of_scalar hs] at ho
      cases ho
    | op hitem' _ _ hoperands =>
      cases hitem.symm.trans hitem'
      obtain ⟨id', hid', haddress⟩ := exists_getElem?_of_forall₂ hoperands ho
      obtain rfl : id' = id := congrArg NodeId.mk (h.index_inj haddress hid)
      exact ⟨_, _, hnode, hid'⟩

/-- Every node but the root is an operand in exactly one place, where its path ends. -/
theorem existsUnique_hasOperand (h : IsPostorder doc store paths) (hid : id.index < store.size)
    (hroot : id.index + 1 ≠ store.size) : ∃! place, store.HasOperand place id := by
  obtain ⟨path, hpath⟩ : ∃ path, paths[id.index]? = some path :=
    ⟨_, getElem?_eq_getElem (h.length_eq ▸ hid)⟩
  obtain rfl | ⟨before, step, rfl⟩ := eq_nil_or_concat' path
  · exact absurd (h.getElem?_eq_nil_iff.1 hpath) hroot
  -- the step is taken from the node that the path before it leads to
  obtain ⟨node, hnode⟩ := Option.isSome_iff_exists.1 ((h.mem_iff _).1 (mem_of_getElem? hpath))
  rw [follow?_append] at hnode
  obtain ⟨item, hitem, hstep⟩ := Option.bind_eq_some_iff.1 hnode
  rw [follow?_singleton] at hstep
  have hbefore : before ∈ paths := (h.mem_iff before).2 (Option.isSome_iff_exists.2 ⟨item, hitem⟩)
  have hchild : (step, node) ∈ children item := mem_children.2 hstep
  obtain ⟨i, hi⟩ := mem_iff_getElem?.1 hbefore
  obtain ⟨k, hk⟩ := mem_iff_getElem?.1 hchild
  refine ⟨(⟨i⟩, k), h.hasOperand_iff.2 ⟨before, item, _, hi, hitem, hk, hpath⟩, ?_⟩
  rintro ⟨⟨i'⟩, k'⟩ hplace
  obtain ⟨path', item', o, hi', hitem', hk', hpath'⟩ := h.hasOperand_iff.1 hplace
  obtain ⟨rfl, hlast⟩ := append_inj' (Option.some.inj (hpath.symm.trans hpath')) rfl
  cases hitem.symm.trans hitem'
  obtain rfl : i = i' := h.index_inj hi hi'
  obtain rfl : step = o.1 := head_eq_of_cons_eq hlast
  obtain rfl : k = k' := index_eq_of_step_eq hk hk' rfl
  rfl

end IsPostorder

/-- What is accepted is of the grammar of mixed documents, in either form. -/
private theorem denotes_of_decode (h : form.decode doc = .ok e) : Denotes doc e := by
  cases form with
  | tree => exact decodeAt_eq_ok_iff.1 (Form.decode_mixed_of_decode_tree h)
  | mixed => exact decodeAt_eq_ok_iff.1 h

/-- **A document is read into a store without gaps.** If a document is accepted, in either form, the
store is that of its graph. It holds exactly one node for each node of the document, in the order in
which these end, operands from left to right and before their node. The root is the last of them,
and every operator comes after its operands. Every other node is an operand of exactly one node, in
exactly one place. So following operands never leaves the store and always comes to an end. As long
as 32 bits are enough for the size of the store, they are enough for every address in it. -/
theorem exists_isPostorder_of_build {root : NodeId} {store : Store}
    (h : form.build doc = .ok (root, store)) :
    (∃ g, form.graph doc = .ok g ∧ g.root = root ∧ g.nodes = store) ∧
    (∃ paths, IsPostorder doc store paths) ∧
    root.index + 1 = store.size ∧
    store.Descends ∧
    (∀ id : NodeId, id.index < store.size → id ≠ root → ∃! place, store.HasOperand place id) ∧
    store.IsAcyclic ∧
    (store.size ≤ UInt32.size → root.narrow = root ∧ ∀ node ∈ store, node.narrow = node) := by
  obtain ⟨e, hdecode, hplace⟩ : ∃ e, form.decode doc = .ok e ∧ e.placeRoot #[] = (root, store) := by
    rw [Form.build_eq] at h
    cases hdecode : form.decode doc with
    | error r => rw [hdecode] at h; cases h
    | ok e =>
      rw [hdecode] at h
      exact ⟨e, rfl, Except.ok.inj h⟩
  obtain ⟨rfl, rfl⟩ := Prod.mk.inj hplace
  have hgraph : form.graph doc = .ok (.ofExpr e) := congrArg (Except.map Graph.ofExpr) hdecode
  obtain ⟨paths, hpaths⟩ := exists_isPostorder_of_denotes (denotes_of_decode hdecode)
  have hroot : (e.place #[]).1.label.index + 1 = (e.place #[]).2.size := e.index_root_place #[]
  have hdescends : (e.place #[]).2.Descends := descendsFrom_zero.1 (e.descendsFrom_place #[])
  refine ⟨⟨_, hgraph, rfl, rfl⟩, ⟨paths, hpaths⟩, hroot, hdescends, fun id hid hne => ?_,
    hdescends.isAcyclic, fun hsize => ⟨NodeId.narrow_eq_self ?_, fun node hnode => ?_⟩⟩
  · refine hpaths.existsUnique_hasOperand hid fun hlast => hne (congrArg NodeId.mk ?_)
    exact Nat.succ.inj (hlast.trans hroot.symm)
  · exact Nat.lt_of_succ_le (hroot.trans_le hsize)
  · obtain ⟨i, hi, rfl⟩ := Array.mem_iff_getElem.1 hnode
    exact Expr.narrow_of_place hsize (Nat.zero_le i) (Array.getElem?_eq_getElem hi)

/-- The null is in the second operand, and so it comes after the first and before the third. -/
theorem exists_isPostorder_of_build_nested :
    Form.mixed.build (.arr [.int 19, .str "a",
        .obj [("op", .str "coalesce"), ("av", .arr [.null])], .bool true])
      = .ok (⟨4⟩, #[.lit (.str "a"), .lit .null, .op .coalesce [⟨1⟩], .lit (.bool true),
          .op .coalesce [⟨0⟩, ⟨2⟩, ⟨3⟩]]) ∧
    ∃! place, HasOperand #[.lit (.str "a"), .lit .null, .op .coalesce [⟨1⟩], .lit (.bool true),
      .op .coalesce [⟨0⟩, ⟨2⟩, ⟨3⟩]] place ⟨1⟩ := by
  have hdenotes : Denotes (.arr [.int 19, .str "a",
      .obj [("op", .str "coalesce"), ("av", .arr [.null])], .bool true])
      (.op () .coalesce [.lit () (.str "a"), .op () .coalesce [.lit () .null],
        .lit () (.bool true)]) :=
    .op (.array rfl) rfl .array (.cons (.literal rfl) (.cons
      (.op (.object rfl) rfl (.av rfl rfl) (.cons (.literal rfl) .nil))
      (.cons (.literal rfl) .nil)))
  have hbuild : Form.mixed.build (.arr [.int 19, .str "a",
        .obj [("op", .str "coalesce"), ("av", .arr [.null])], .bool true])
      = .ok (⟨4⟩, #[.lit (.str "a"), .lit .null, .op .coalesce [⟨1⟩], .lit (.bool true),
          .op .coalesce [⟨0⟩, ⟨2⟩, ⟨3⟩]]) := by
    rw [Form.build_eq, Form.decode, decodeAt_eq_ok_iff.2 hdenotes]
    rfl
  obtain ⟨-, -, -, -, hoperand, -⟩ := exists_isPostorder_of_build hbuild
  exact ⟨hbuild, hoperand ⟨1⟩ (by decide) (by decide)⟩

end OpTree.Document
