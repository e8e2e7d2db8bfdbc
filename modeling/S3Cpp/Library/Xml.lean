import Mathlib.Data.List.Basic

-- The node tree an XML parser hands out.
namespace S3Cpp.Library.Xml

inductive Node
  | element (name : List UInt8) (children : List Node)
  | pcdata (text : List UInt8)

namespace Node

def named (name : List UInt8) : Node → Bool
  | element own _ => own == name
  | pcdata _ => false

def children : Node → List Node
  | element _ children => children
  | pcdata _ => []

def text? : Node → Option (List UInt8)
  | element _ _ => none
  | pcdata text => some text

def child (node : Node) (name : List UInt8) : Option Node := node.children.find? (named name)

def childrenNamed (node : Node) (name : List UInt8) : List Node := node.children.filter (named name)

-- The first text below a node, empty when there is none.
def value (node : Node) : List UInt8 := (node.children.findSome? text?).getD []

def childValue (node : Node) (name : List UInt8) : List UInt8 := ((node.child name).map value).getD []

-- A handle that stands for no node has no text either.
def valueBelow (handle : Option Node) (name : List UInt8) : List UInt8 :=
  (handle.map fun node => node.childValue name).getD []

theorem child_isSome_iff (node : Node) (name : List UInt8) :
    (node.child name).isSome ↔ ∃ child, child ∈ node.childrenNamed name := by
  simp only [child, List.find?_isSome, childrenNamed, List.mem_filter]

theorem child_eq_head? (node : Node) (name : List UInt8) :
    node.child name = (node.childrenNamed name).head? := by
  rw [child, childrenNamed, List.head?_filter]

theorem childValue_of_child {node child : Node} {name : List UInt8} (h : node.child name = some child) :
    node.childValue name = child.value := by
  rw [childValue, h]
  rfl

theorem eq_of_named {node : Node} {name other : List UInt8} (h : node.named name = true)
    (hother : node.named other = true) : name = other := by
  cases node with
  | element own children => exact (beq_iff_eq.mp h).symm.trans (beq_iff_eq.mp hother)
  | pcdata text => cases h

-- An element with a text, which is no node when it is empty.
def textNode (name text : List UInt8) : Node := element name (if text = [] then [] else [pcdata text])

theorem value_textNode (name text : List UInt8) : (textNode name text).value = text := by
  by_cases htext : text = []
  · simp [textNode, value, children, htext]
  · simp [textNode, value, children, text?, htext]

end Node

mutual

def Node.same : Node → Node → Bool
  | .element name children, .element name' children' => name == name' && Node.sameAll children children'
  | .pcdata text, .pcdata text' => text == text'
  | _, _ => false

def Node.sameAll : List Node → List Node → Bool
  | [], [] => true
  | node :: nodes, node' :: nodes' => node.same node' && Node.sameAll nodes nodes'
  | _, _ => false

end

mutual

theorem Node.same_iff (node other : Node) : node.same other = true ↔ node = other := by
  match node, other with
  | .element name children, .element name' children' =>
      rw [Node.same, Bool.and_eq_true, beq_iff_eq, Node.sameAll_iff children children', Node.element.injEq]
  | .pcdata text, .pcdata text' => rw [Node.same, beq_iff_eq, Node.pcdata.injEq]
  | .element name children, .pcdata text => simp [Node.same]
  | .pcdata text, .element name children => simp [Node.same]

theorem Node.sameAll_iff (nodes others : List Node) : Node.sameAll nodes others = true ↔ nodes = others := by
  match nodes, others with
  | [], [] => simp [Node.sameAll]
  | node :: nodes, node' :: nodes' =>
      rw [Node.sameAll, Bool.and_eq_true, Node.same_iff node node', Node.sameAll_iff nodes nodes', List.cons.injEq]
  | [], _ :: _ => simp [Node.sameAll]
  | _ :: _, [] => simp [Node.sameAll]

end

instance : DecidableEq Node := fun node other => decidable_of_iff _ (Node.same_iff node other)

-- Elements of one name.
structure Group where
  name : List UInt8
  nodes : List Node
  named : ∀ node ∈ nodes, node.named name = true

def textGroup (name : List UInt8) (text : Option (List UInt8)) : Group where
  name := name
  nodes := text.toList.map (Node.textNode name)
  named node hnode := by
    obtain ⟨text, -, rfl⟩ := List.mem_map.mp hnode
    exact beq_self_eq_true name

-- Children that are those of the groups among others of other names, in any
-- order but for the one that the elements of each group keep.
structure Arranged (groups : List Group) (children : List Node) : Prop where
  mixed : ∃ others, children.Perm (groups.flatMap Group.nodes ++ others) ∧
    ∀ node ∈ others, ∀ group ∈ groups, node.named group.name = false
  ordered : ∀ group ∈ groups, group.nodes.Sublist children

-- The groups one after the other are one such order.
theorem arranged_flatMap (groups : List Group) : Arranged groups (groups.flatMap Group.nodes) where
  mixed := ⟨[], by simp, by simp⟩
  ordered group hgroup := by
    obtain ⟨before, after, rfl⟩ := List.append_of_mem hgroup
    rw [List.flatMap_append, List.flatMap_cons]
    exact (List.sublist_append_left _ _).trans (List.sublist_append_right _ _)

theorem filter_named_eq_nil {groups : List Group} {name : List UInt8}
    (h : ∀ group ∈ groups, group.name ≠ name) :
    (groups.flatMap Group.nodes).filter (Node.named name) = [] := by
  rw [List.filter_eq_nil_iff]
  intro node hnode hnamed
  obtain ⟨group, hgroup, hnode⟩ := List.mem_flatMap.mp hnode
  exact h group hgroup (Node.eq_of_named (group.named node hnode) hnamed)

theorem filter_named_groups {groups : List Group} (hnames : (groups.map Group.name).Nodup)
    {group : Group} (hgroup : group ∈ groups) :
    (groups.flatMap Group.nodes).filter (Node.named group.name) = group.nodes := by
  obtain ⟨before, after, rfl⟩ := List.append_of_mem hgroup
  rw [List.map_append, List.map_cons, List.nodup_append] at hnames
  obtain ⟨-, hafter, hbefore⟩ := hnames
  have hown : group.nodes.filter (Node.named group.name) = group.nodes :=
    List.filter_eq_self.mpr group.named
  rw [List.flatMap_append, List.flatMap_cons, List.filter_append, List.filter_append, hown,
    filter_named_eq_nil, filter_named_eq_nil, List.append_nil, List.nil_append]
  · intro other hother hname
    exact (List.nodup_cons.mp hafter).1 (hname ▸ List.mem_map_of_mem hother)
  · intro other hother hname
    exact hbefore _ (List.mem_map_of_mem hother) _ List.mem_cons_self hname

section Arranged

variable {groups : List Group} {node : Node}

theorem Arranged.childrenNamed (h : Arranged groups node.children)
    (hnames : (groups.map Group.name).Nodup) {group : Group} (hgroup : group ∈ groups) :
    node.childrenNamed group.name = group.nodes := by
  obtain ⟨others, hperm, hothers⟩ := h.mixed
  have hnone : others.filter (Node.named group.name) = [] := by
    rw [List.filter_eq_nil_iff]
    intro other hother
    simp [hothers other hother group hgroup]
  have hfilter := hperm.filter (Node.named group.name)
  rw [List.filter_append, filter_named_groups hnames hgroup, hnone, List.append_nil] at hfilter
  have hsublist := (h.ordered group hgroup).filter (Node.named group.name)
  rw [List.filter_eq_self.mpr group.named] at hsublist
  exact (hsublist.eq_of_length hfilter.length_eq.symm).symm

theorem Arranged.childValue (h : Arranged groups node.children)
    (hnames : (groups.map Group.name).Nodup) {name : List UInt8} {text : Option (List UInt8)}
    (htext : textGroup name text ∈ groups) : node.childValue name = text.getD [] := by
  have hnodes : node.childrenNamed name = text.toList.map (Node.textNode name) :=
    h.childrenNamed hnames htext
  rw [Node.childValue, Node.child_eq_head?, hnodes]
  cases text with
  | none => rfl
  | some text => simp [Node.value_textNode]

end Arranged

-- The white space of XML. A text that has nothing else is no node when a document is
-- parsed the usual way.
def space (b : UInt8) : Bool := b == 32 || b == 9 || b == 10 || b == 13

def Node.dropped : Node → Bool
  | .pcdata text => text.all space
  | .element _ _ => false

mutual

-- What a parser hands out of a document.
def Node.parsed : Node → Node
  | .element name children => .element name (Node.parsedAll children)
  | .pcdata text => .pcdata text

def Node.parsedAll : List Node → List Node
  | [] => []
  | node :: nodes => if node.dropped then Node.parsedAll nodes else node.parsed :: Node.parsedAll nodes

end

-- A text that is there after parsing.
def Legible (text : List UInt8) : Prop := text = [] ∨ text.all space = false

instance (text : List UInt8) : Decidable (Legible text) := inferInstanceAs (Decidable (_ ∨ _))

def visible (text : List UInt8) : List UInt8 := if text.all space then [] else text

theorem visible_of_legible {text : List UInt8} (h : Legible text) : visible text = text := by
  rcases h with rfl | h
  · rfl
  · rw [visible, h, if_neg Bool.false_ne_true]

theorem map_visible_of_legible {text : Option (List UInt8)} (h : ∀ some ∈ text, Legible some) :
    text.map visible = text := by
  cases text with
  | none => rfl
  | some text => rw [Option.map_some, visible_of_legible (h text rfl)]

theorem legible_of_mem {text : List UInt8} {b : UInt8} (hmem : b ∈ text) (h : space b = false) : Legible text := by
  refine .inr (Bool.eq_false_iff.mpr fun hall => ?_)
  rw [List.all_eq_true.mp hall b hmem] at h
  cases h

namespace Node

theorem parsedAll_append (nodes others : List Node) :
    parsedAll (nodes ++ others) = parsedAll nodes ++ parsedAll others := by
  induction nodes with
  | nil => rfl
  | cons node nodes ih =>
      rw [List.cons_append, parsedAll, parsedAll, ih]
      split
      · rfl
      · rw [List.cons_append]

theorem parsedAll_of_kept {nodes : List Node} (h : ∀ node ∈ nodes, node.dropped = false ∧ node.parsed = node) :
    parsedAll nodes = nodes := by
  induction nodes with
  | nil => rfl
  | cons node nodes ih =>
      rw [List.forall_mem_cons] at h
      rw [parsedAll, h.1.1, h.1.2, ih h.2, if_neg Bool.false_ne_true]

theorem parsed_textNode (name text : List UInt8) : (textNode name text).parsed = textNode name (visible text) := by
  by_cases htext : text = []
  · simp [textNode, visible, parsed, parsedAll, htext]
  · by_cases hspace : text.all space = true
    · simp only [textNode, visible, parsed, parsedAll, dropped, htext, hspace, if_true, if_false]
    · simp only [textNode, visible, parsed, parsedAll, dropped, htext, hspace, if_false, Bool.false_eq_true]

theorem parsedAll_textGroup (name : List UInt8) (text : Option (List UInt8)) :
    parsedAll (textGroup name text).nodes = (textGroup name (text.map visible)).nodes := by
  cases text with
  | none => rfl
  | some text =>
      have hnode : parsedAll [textNode name text] = [(textNode name text).parsed] := rfl
      simp only [textGroup, Option.map_some, Option.toList_some, List.map_cons, List.map_nil]
      rw [hnode, parsed_textNode]

theorem parsedAll_textGroup_of_legible (name : List UInt8) {text : Option (List UInt8)}
    (h : ∀ some ∈ text, Legible some) : parsedAll (textGroup name text).nodes = (textGroup name text).nodes := by
  rw [parsedAll_textGroup, map_visible_of_legible h]

theorem parsedAll_flatMap_of_kept {groups : List Group}
    (h : ∀ group ∈ groups, parsedAll group.nodes = group.nodes) :
    parsedAll (groups.flatMap Group.nodes) = groups.flatMap Group.nodes := by
  induction groups with
  | nil => rfl
  | cons group groups ih =>
      rw [List.forall_mem_cons] at h
      rw [List.flatMap_cons, parsedAll_append, h.1, ih h.2]

end Node

end S3Cpp.Library.Xml
