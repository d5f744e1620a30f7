import FlowPlan.Diagram.Flow
import FlowPlan.Proofs.Drawings
import FlowPlan.Proofs.Histories
import FlowPlan.Proofs.Sites

/-!
The diagram of a flow graph, read as text.

A node is named by the numbers of the parts around an element and of the element itself, and the
name can be taken apart again, so elements at different sites have different nodes
(`nodeName_inj`).  Going through the statements, the diagram declares a node for each site, an edge
for each connection of each enclosed flow, and a titled cluster for each part
(`read_diagram`, for any graph).  In a well-formed graph the edges run between these nodes:
`drawn_isDrawing`.
-/

namespace FlowPlan

/-! ## Names of nodes -/

namespace Site

/-- The numbers of the parts around the element, and its own. -/
def ids (s : Site) : List ElementId := (s.path ++ [s.element]).map (·.id)

/-- The node of the element. -/
def nodeName (s : Site) : String := "_".intercalate (s.ids.map ElementId.label)

theorem nodeName_here (g : FlowGraph) (e : Element) : nodeName ⟨[], g, e⟩ = e.id.label := by
  simp [nodeName, ids]

theorem nodeName_under (e : Element) (s : Site) :
    (s.under e).nodeName = e.id.label ++ "_" ++ s.nodeName := by
  have hids : (s.under e).ids = e.id :: s.ids := rfl
  rw [nodeName, hids, List.map_cons, String.intercalate_cons_of_ne_nil (by simp [ids])]
  rfl

/-- The numbers can be read off the node. -/
theorem nodeName_inj {s t : Site} : s.nodeName = t.nodeName ↔ s.ids = t.ids := by
  have hlabel : ∀ i : ElementId, i.label.toList = 'e' :: Nat.toDigits 10 i :=
    Dot.toList_numbered "e"
  have hsplit : ∀ s : Site, s.nodeName.toList.splitOn '_' = s.ids.map (·.label.toList) := by
    intro s
    rw [nodeName, String.toList_intercalate, List.map_map]
    refine List.splitOn_intercalate '_' (fun l hl hmem => ?_) (by simp [ids])
    obtain ⟨i, -, rfl⟩ := List.mem_map.1 hl
    rw [Function.comp_apply, hlabel] at hmem
    rcases List.mem_cons.1 hmem with heq | hmem
    · exact absurd heq (by decide)
    · exact absurd (Dot.isDigit_of_mem_toDigits hmem) (by decide)
  refine ⟨fun heq => ?_, fun heq => by rw [nodeName, nodeName, heq]⟩
  have hlabels : s.ids.map (·.label.toList) = t.ids.map (·.label.toList) := by
    rw [← hsplit, ← hsplit, heq]
  exact List.map_injective_iff.2
    (fun _ _ hij => Dot.numbered_injective "e" (String.toList_inj.1 hij)) hlabels

end Site

namespace FlowGraph

variable {g inner k : FlowGraph} {e : Element} {s t : Site}

/-- In a well-formed graph the numbers lead to one element. -/
theorem IsSite.eq_of_ids (h : g.WellFormed) (hs : g.IsSite s) (ht : g.IsSite t)
    (hids : s.ids = t.ids) : s = t := by
  obtain ⟨path, k, x⟩ := s
  obtain ⟨path', k', x'⟩ := t
  obtain ⟨hk, hx⟩ := hs
  obtain ⟨hk', hx'⟩ := ht
  dsimp only at hk hx hk' hx'
  induction hk generalizing path' with
  | itself g =>
    cases hk' with
    | itself =>
      have hid : x.id = x'.id := by simpa [Site.ids] using hids
      rw [h.coherent.eq_of_id_eq hx hx' hid]
    | inPart => simp [Site.ids] at hids
  | @inPart g inner k e path he hkind hk ih =>
    cases hk' with
    | itself => simp [Site.ids] at hids
    | @inPart _ inner' _ e' path' he' hkind' hk' =>
      have hcons : e.id :: (path ++ [x]).map (·.id) = e'.id :: (path' ++ [x']).map (·.id) := hids
      obtain ⟨hid, hrest⟩ := List.cons.inj hcons
      obtain rfl := h.coherent.eq_of_id_eq he he' hid
      obtain rfl : inner = inner' := by
        rw [hkind] at hkind'
        exact ElementKind.flowPart.inj hkind'
      exact congrArg (Site.under e) (ih (h.inner he hkind) path' hrest hx hk')

theorem nodeNames_nodup (h : g.WellFormed) : (g.sites.map Site.nodeName).Nodup := by
  refine (List.nodup_map_iff_inj_on (sites_nodup h)).2 fun s hs t ht heq => ?_
  exact IsSite.eq_of_ids h (isSite_of_mem_sites hs) (isSite_of_mem_sites ht)
    (Site.nodeName_inj.1 heq)

end FlowGraph

/-! ## Enclosed flows -/

/-- A flow at some depth, with the parts around it. -/
structure Enclosed where
  path : List Element
  flow : FlowGraph

namespace Enclosed

def under (e : Element) (l : Enclosed) : Enclosed := { l with path := e :: l.path }

/-- What the nodes of the flow begin with. -/
def nodePrefix (l : Enclosed) : String := String.join (l.path.map fun e => e.id.label ++ "_")

/-- The site of one of the elements. -/
def site (l : Enclosed) (x : Element) : Site := { path := l.path, flow := l.flow, element := x }

theorem nodeName_site (l : Enclosed) (x : Element) :
    (l.site x).nodeName = l.nodePrefix ++ x.id.label := by
  obtain ⟨path, flow⟩ := l
  induction path with
  | nil => simpa [site, nodePrefix] using Site.nodeName_here flow x
  | cons e path ih =>
    have hunder : site ⟨e :: path, flow⟩ x = (site ⟨path, flow⟩ x).under e := rfl
    rw [hunder, Site.nodeName_under, ih]
    simp [nodePrefix, String.append_assoc]

theorem under_injective (e : Element) : Function.Injective (under e) := by
  rintro ⟨_, _⟩ ⟨_, _⟩ heq
  simpa [under] using heq

end Enclosed

namespace FlowGraph

variable {g inner k : FlowGraph} {e : Element} {l : Enclosed} {c : Connection}

/-- The flows at all depths, those of the parts in front of the whole. -/
def enclosed (g : FlowGraph) : List Enclosed :=
  (g.elements.attach.flatMap fun ⟨e, _⟩ =>
    match _hk : e.kind with
    | .flowPart inner => inner.enclosed.map (·.under e)
    | _ => []) ++ [⟨[], g⟩]
termination_by sizeOf g
decreasing_by exact sizeOf_inner_lt (by assumption) (by assumption)

/-- The flows in an element. -/
def enclosedIn (e : Element) : List Enclosed :=
  match e.kind with
  | .flowPart inner => inner.enclosed.map (·.under e)
  | _ => []

theorem enclosed_eq (g : FlowGraph) :
    g.enclosed = g.elements.flatMap enclosedIn ++ [⟨[], g⟩] := by
  rw [enclosed]
  refine congrArg (· ++ _) ?_
  conv => rhs; rw [← List.attach_map_subtype_val g.elements, List.flatMap_map]
  refine List.flatMap_congr fun ⟨e, he⟩ _ => ?_
  obtain ⟨_, _, kind, _, _, _⟩ := e
  cases kind <;> rfl

theorem mem_enclosedIn : l ∈ enclosedIn e ↔
    ∃ inner, e.kind = .flowPart inner ∧ ∃ m ∈ inner.enclosed, m.under e = l := by
  unfold enclosedIn
  cases e.kind <;> simp

theorem mem_enclosed_of_encloses {path : List Element} (hk : g.Encloses path k) :
    ⟨path, k⟩ ∈ g.enclosed := by
  induction hk with
  | itself g =>
    rw [enclosed_eq]
    exact List.mem_append_right _ List.mem_cons_self
  | @inPart g inner k e path he hkind _ ih =>
    rw [enclosed_eq]
    exact List.mem_append_left _
      (List.mem_flatMap.2 ⟨e, he, mem_enclosedIn.2 ⟨inner, hkind, _, ih, rfl⟩⟩)

theorem encloses_of_mem_enclosed {g : FlowGraph} {l : Enclosed} (hl : l ∈ g.enclosed) :
    g.Encloses l.path l.flow := by
  rw [enclosed_eq, List.mem_append, List.mem_flatMap, List.mem_singleton] at hl
  rcases hl with ⟨e, he, hl⟩ | rfl
  · obtain ⟨inner, hk, m, hm, rfl⟩ := mem_enclosedIn.1 hl
    have := sizeOf_inner_lt he hk
    exact .inPart he hk (encloses_of_mem_enclosed hm)
  · exact .itself g
termination_by sizeOf g

theorem enclosed_nodup (h : g.WellFormed) : g.enclosed.Nodup := by
  induction h with
  | @intro g hg _ ih =>
    have hpath : ∀ {l e}, l ∈ enclosedIn e → ∃ path, l.path = e :: path := by
      intro l e hl
      obtain ⟨inner, -, m, -, rfl⟩ := mem_enclosedIn.1 hl
      exact ⟨m.path, rfl⟩
    rw [enclosed_eq, List.nodup_append, List.nodup_flatMap]
    refine ⟨⟨fun e he => ?_, ?_⟩, List.nodup_singleton _, ?_⟩
    · unfold enclosedIn
      split
      case h_1 inner hk => exact (ih e he inner hk).map (Enclosed.under_injective e)
      case h_2 => exact .nil
    · -- Flows in two elements differ in the outermost part around them.
      refine hg.elements_nodup.imp fun {x y} hne l hx hy => hne ?_
      obtain ⟨path, hl⟩ := hpath hx
      obtain ⟨path', hl'⟩ := hpath hy
      exact (List.cons.inj (hl.symm.trans hl')).1
    · rintro l hl m hm rfl
      obtain ⟨e, -, hl⟩ := List.mem_flatMap.1 hl
      obtain ⟨path, hpath⟩ := hpath hl
      rw [List.mem_singleton.1 hm] at hpath
      cases hpath

theorem enclosed_enumerate (h : g.WellFormed) :
    Enumerates g.enclosed fun l => g.Encloses l.path l.flow :=
  ⟨enclosed_nodup h, fun _ => ⟨encloses_of_mem_enclosed, mem_enclosed_of_encloses⟩⟩

/-- The connections at all depths, each with the flow that has it. -/
def joints (g : FlowGraph) : List (Enclosed × Connection) :=
  g.enclosed.flatMap fun l => l.flow.connections.map (l, ·)

theorem joints_enumerate (h : g.WellFormed) : Enumerates g.joints fun j =>
    g.Encloses j.1.path j.1.flow ∧ j.2 ∈ j.1.flow.connections :=
  (enclosed_enumerate h).pairs fun _ hl => (h.of_encloses hl).coherent.connectedOnce

/-! ## Statements -/

/-- The statements of an element, which begin with its node or with the cluster around it. -/
def elementStatements (path : String) (e : Element) : List Dot.Statement :=
  match e.kind with
  | .flowPart inner =>
    [.blank, .cluster (nodeName path e.id)
      ([.setting ⟨"label", .quoted [.text "flow part: ", .text e.name]⟩,
        .setting ⟨"style", .word "dashed"⟩,
        .setting ⟨"color", .word "gray50"⟩,
        .node (nodeName path e.id) [⟨"shape", .word "point"⟩, ⟨"label", .quoted []⟩]]
        ++ statements (nodeName path e.id ++ "_") inner)]
  | _ => [.node (nodeName path e.id) (box (shapeOf e) (colorOf e) (labelOf e))]

theorem statements_eq (path : String) (g : FlowGraph) :
    statements path g = g.elements.flatMap (elementStatements path)
      ++ .blank :: g.connections.map (g.edgeOf path) := by
  rw [statements]
  refine congrArg (· ++ _) ?_
  conv => rhs; rw [← List.attach_map_subtype_val g.elements, List.flatMap_map]
  refine List.flatMap_congr fun ⟨e, he⟩ _ => ?_
  obtain ⟨_, _, kind, _, _, _⟩ := e
  cases kind <;> rfl

theorem nodeName_eq (path : String) (e : ElementId) :
    nodeName path e = path ++ "e" ++ toString e := by
  rw [String.append_assoc]
  rfl

theorem nodeName_isWord {path : String} (h : path.toList.all Dot.isWordChar = true)
    (e : ElementId) : Dot.IsWord (nodeName path e) := by
  rw [nodeName_eq]
  refine Dot.isWord_numbered ?_ e
  rw [String.toList_append, List.all_append, h]
  rfl

theorem nodeName_notMem_keywords (path : String) (e : ElementId) :
    nodeName path e ∉ Dot.keywords := by
  rw [nodeName_eq]
  exact Dot.numbered_notMem_keywords _ e

theorem box_isPlain {shape color : String} (hshape : Dot.IsWord shape) (hcolor : Dot.IsWord color)
    (label : List Dot.Piece) : ∀ a ∈ box shape color label, a.IsPlain := by
  simp only [box, List.forall_mem_cons]
  exact ⟨.word (by decide) hshape, .word (by decide) (by decide), .word (by decide) hcolor,
    .quoted (by decide) label, by simp⟩

theorem shapeOf_isWord (e : Element) : Dot.IsWord (shapeOf e) := by
  unfold shapeOf
  split <;> decide

theorem colorOf_isWord (e : Element) : Dot.IsWord (colorOf e) := by
  unfold colorOf
  split <;> decide

theorem edgeOf_isPlain {path : String} (h : path.toList.all Dot.isWordChar = true)
    (c : Connection) : (g.edgeOf path c).IsPlain := by
  rw [edgeOf, Dot.Statement.IsPlain]
  refine ⟨nodeName_isWord h _, nodeName_isWord h _, ?_⟩
  simp only [Dot.Value.string, List.forall_mem_cons]
  exact ⟨.quoted (by decide) _, .quoted (by decide) _, by simp⟩

/-- Whatever the names are, only words stand outside of the quotes. -/
theorem statements_isPlain {g : FlowGraph} {path : String}
    (h : path.toList.all Dot.isWordChar = true) : ∀ s ∈ statements path g, s.IsPlain := by
  rw [statements_eq, List.forall_mem_append, List.forall_mem_cons]
  refine ⟨fun s hs => ?_, trivial, fun s hs => ?_⟩
  · obtain ⟨e, he, hs⟩ := List.mem_flatMap.1 hs
    have hnode := nodeName_isWord h e.id
    unfold elementStatements at hs
    split at hs
    case h_1 inner hk =>
      have := sizeOf_inner_lt he hk
      have hpath : (nodeName path e.id ++ "_").toList.all Dot.isWordChar = true := by
        rw [String.toList_append, List.all_append, hnode.chars]
        rfl
      have hinner := statements_isPlain (g := inner) hpath
      rw [List.mem_cons, List.mem_singleton] at hs
      rcases hs with rfl | rfl
      · trivial
      · rw [Dot.Statement.IsPlain, Dot.bodyIsPlain_iff, List.forall_mem_append]
        refine ⟨hnode, ?_, hinner⟩
        simp only [List.forall_mem_cons, Dot.Statement.IsPlain]
        exact ⟨.quoted (by decide) _, .word (by decide) (by decide),
          .word (by decide) (by decide),
          ⟨hnode, .word (by decide) (by decide), .quoted (by decide) _, by simp⟩, by simp⟩
    case h_2 =>
      rw [List.mem_singleton.1 hs, Dot.Statement.IsPlain]
      exact ⟨hnode, box_isPlain (shapeOf_isWord e) (colorOf_isWord e) _⟩
  · obtain ⟨c, -, rfl⟩ := List.mem_map.1 hs
    exact edgeOf_isPlain h c
termination_by sizeOf g

/-! ## Declarations -/

/-- The attributes of an element's node.  That of a part is only a point in its cluster. -/
def nodeAttributes (e : Element) : List Dot.Attribute :=
  if e.isFlowPart then [⟨"shape", .word "point"⟩, ⟨"label", .quoted []⟩]
  else box (shapeOf e) (colorOf e) (labelOf e)

def drawnNode (path : String) (s : Site) : Dot.Node :=
  { id := path ++ s.nodeName, attributes := Dot.attributeTokens (nodeAttributes s.element) }

def drawnEdge (path : String) (g : FlowGraph) (c : Connection) : Dot.Edge :=
  { tail := nodeName path ((g.ownerId? c.source).getD 0),
    head := nodeName path ((g.ownerId? c.target).getD 0),
    attributes := Dot.attributeTokens [⟨"taillabel", .string (g.portName c.source)⟩,
      ⟨"headlabel", .string (g.portName c.target)⟩] }

def drawnCluster (path : String) (s : Site) : Dot.Cluster :=
  { id := "cluster_" ++ (path ++ s.nodeName), title := some ["flow part: " ++ s.element.name] }

/-- What is drawn of a flow whose nodes begin with the path. -/
def drawn (path : String) (g : FlowGraph) : Dot.Drawing :=
  { nodes := g.sites.map (drawnNode path),
    edges := g.joints.map fun j => drawnEdge (path ++ j.1.nodePrefix) j.1.flow j.2,
    clusters := (g.sites.filter (·.element.isFlowPart)).map (drawnCluster path) }

/-- What is drawn of an element itself. -/
def elementDrawn (path : String) (g : FlowGraph) (e : Element) : Dot.Drawing :=
  { nodes := [drawnNode path ⟨[], g, e⟩], edges := [],
    clusters := if e.isFlowPart then [drawnCluster path ⟨[], g, e⟩] else [] }

/-- What is drawn of the flows in an element. -/
def innerDrawn (path : String) (e : Element) : Dot.Drawing :=
  { nodes := (sitesIn e).map (drawnNode path),
    edges := (enclosedIn e).flatMap fun l =>
      l.flow.connections.map (drawnEdge (path ++ l.nodePrefix) l.flow),
    clusters := ((sitesIn e).filter (·.element.isFlowPart)).map (drawnCluster path) }

theorem drawn_eq (path : String) (g : FlowGraph) :
    g.drawn path = .join g.elements (fun e => elementDrawn path g e ++ innerDrawn path e)
      ++ ⟨[], g.connections.map (drawnEdge path g), []⟩ := by
  have hcluster : ∀ e, ((⟨[], g, e⟩ :: sitesIn e : List Site).filter (·.element.isFlowPart)).map
      (drawnCluster path) = (elementDrawn path g e ++ innerDrawn path e).clusters := by
    intro e
    rw [List.filter_cons]
    by_cases hpart : e.isFlowPart <;> simp [hpart, elementDrawn, innerDrawn, Dot.Drawing.append_def]
  rw [drawn, joints, sites_eq, enclosed_eq, Dot.Drawing.join]
  simp only [List.map_flatMap, List.filter_flatMap, List.flatMap_append, hcluster]
  simp [elementDrawn, innerDrawn, Dot.Drawing.append_def, Enclosed.nodePrefix, Function.comp_def,
    List.flatMap_assoc, List.map_flatMap]

/-- Inside of a part the nodes begin with that of the part. -/
theorem innerDrawn_of_flowPart {path : String} (hk : e.kind = .flowPart inner) :
    innerDrawn path e = inner.drawn (nodeName path e.id ++ "_") := by
  have hname : ∀ s : Site,
      path ++ (s.under e).nodeName = nodeName path e.id ++ "_" ++ s.nodeName := by
    intro s
    rw [Site.nodeName_under, nodeName, String.append_assoc, String.append_assoc,
      String.append_assoc]
  have hprefix : ∀ l : Enclosed,
      path ++ (l.under e).nodePrefix = nodeName path e.id ++ "_" ++ l.nodePrefix := by
    intro l
    simp [Enclosed.nodePrefix, Enclosed.under, nodeName, String.append_assoc]
  have hnode : drawnNode path ∘ Site.under e = drawnNode (nodeName path e.id ++ "_") :=
    funext fun s => by rw [Function.comp_apply, drawnNode, hname]; rfl
  have hcluster : drawnCluster path ∘ Site.under e = drawnCluster (nodeName path e.id ++ "_") :=
    funext fun s => by rw [Function.comp_apply, drawnCluster, hname]; rfl
  rw [innerDrawn, drawn, joints, sitesIn_of_flowPart hk, enclosedIn, hk]
  simp only [List.filter_map, List.map_map, hnode, hcluster, List.flatMap_map, hprefix,
    List.map_flatMap]
  rfl

theorem elementStatements_of_not_isFlowPart (path : String) (hpart : e.isFlowPart = false) :
    elementStatements path e
      = [.node (nodeName path e.id) (box (shapeOf e) (colorOf e) (labelOf e))] := by
  unfold Element.isFlowPart at hpart
  unfold elementStatements
  cases hkind : e.kind with
  | flowPart inner => rw [hkind] at hpart; cases hpart
  | _ => rfl

/-- The title of a part is its name. -/
theorem title_flowPart (name : String) :
    Dot.linesUnder? "label" (Dot.Attribute.tokens
      ⟨"label", .quoted [.text "flow part: ", .text name]⟩) = some ["flow part: " ++ name] := by
  rw [Dot.linesUnder?_tokens, Dot.marks_text_text, Dot.lines_text]

theorem declares_element {path : String} (hinner : ∀ inner, e.kind = .flowPart inner →
    ∀ path, Dot.Declares (Dot.bodyPhrases (statements path inner)) (inner.drawn path)) :
    Dot.Declares (Dot.bodyPhrases (elementStatements path e))
      (elementDrawn path g e ++ innerDrawn path e) := by
  have hid : path ++ Site.nodeName ⟨[], g, e⟩ = nodeName path e.id := by
    rw [Site.nodeName_here]
    rfl
  have hnode : Dot.Declares [.word (nodeName path e.id) :: Dot.attributeTokens (nodeAttributes e)]
      ⟨[drawnNode path ⟨[], g, e⟩], [], []⟩ := by
    rw [drawnNode, hid]
    exact .node (nodeName_notMem_keywords path e.id) _
  by_cases hpart : e.isFlowPart = true
  · obtain ⟨inner, hk⟩ := isFlowPart_iff.1 hpart
    have htitle := Dot.Declares.setting ⟨"label", .quoted [.text "flow part: ", .text e.name]⟩
    have hcluster := (Dot.Declares.cluster ("cluster_" ++ nodeName path e.id) htitle
      ((Dot.Declares.setting ⟨"style", .word "dashed"⟩).append
        ((Dot.Declares.setting ⟨"color", .word "gray50"⟩).append
          (hnode.append (hinner inner hk (nodeName path e.id ++ "_")))))).append
      Dot.Declares.closing
    have hdrawn : elementDrawn path g e
        = ⟨[], [], [drawnCluster path ⟨[], g, e⟩]⟩ ++ ⟨[drawnNode path ⟨[], g, e⟩], [], []⟩ := by
      rw [elementDrawn, if_pos hpart]
      rfl
    rw [title_flowPart, nodeAttributes, if_pos hpart, Dot.Drawing.empty_append,
      Dot.Drawing.empty_append, Dot.Drawing.append_empty, ← Dot.Drawing.append_assoc] at hcluster
    rw [hdrawn, drawnCluster, hid, innerDrawn_of_flowPart hk, elementStatements, hk]
    simpa [Dot.bodyPhrases, Dot.Statement.phrases] using hcluster
  · have hsites := sitesIn_of_not_isFlowPart (Bool.eq_false_iff.2 hpart)
    have henclosed : enclosedIn e = [] := by
      unfold enclosedIn
      split
      case h_1 inner hk => exact absurd (isFlowPart_iff.2 ⟨inner, hk⟩) hpart
      case h_2 => rfl
    rw [elementStatements_of_not_isFlowPart path (Bool.eq_false_iff.2 hpart), innerDrawn, hsites,
      henclosed, elementDrawn, if_neg hpart]
    rw [nodeAttributes, if_neg hpart] at hnode
    exact hnode

theorem declares_statements (path : String) (g : FlowGraph) :
    Dot.Declares (Dot.bodyPhrases (statements path g)) (g.drawn path) := by
  have helements : Dot.Declares ((g.elements.flatMap (elementStatements path)).flatMap
      Dot.Statement.phrases)
      (.join g.elements fun e => elementDrawn path g e ++ innerDrawn path e) := by
    rw [List.flatMap_assoc]
    refine .flatMap fun e he => ?_
    rw [← Dot.bodyPhrases_eq]
    refine declares_element fun inner hk path => ?_
    have := sizeOf_inner_lt he hk
    exact declares_statements path inner
  have hconnections : Dot.Declares (g.connections.map (g.edgeOf path) |>.flatMap
      Dot.Statement.phrases) ⟨[], g.connections.map (drawnEdge path g), []⟩ := by
    rw [List.flatMap_map]
    exact .edges fun c _ => .edge _ _ _
  rw [statements_eq, Dot.bodyPhrases_eq, List.flatMap_append, List.flatMap_cons, drawn_eq]
  exact helements.append (Dot.Declares.nil.append hconnections)
termination_by sizeOf g

/-- The diagram of any graph can be read, and this is what it declares. -/
theorem read_diagram (g : FlowGraph) : Dot.read g.diagram = some (g.drawn "") :=
  Dot.read_document (by decide) (statements_isPlain rfl) (declares_statements "" g)

/-! ## Names -/

/-- The lines of an element's label.  The name of a part stands in the title of its cluster. -/
def labelLines (e : Element) : List String :=
  match e.kind with
  | .operator desc => [e.name, "(" ++ desc.kind ++ ")"]
  | .flowPart _ => [""]
  | _ => [e.name]

theorem linesUnder?_box (shape color : String) (label : List Dot.Piece) :
    Dot.linesUnder? "label" (Dot.attributeTokens (box shape color label))
      = some (Dot.lines (Dot.marks label)) := rfl

theorem label_nodeAttributes (e : Element) :
    Dot.linesUnder? "label" (Dot.attributeTokens (nodeAttributes e)) = some (labelLines e) := by
  unfold nodeAttributes labelLines Element.isFlowPart
  cases hk : e.kind with
  | flowPart inner => rfl
  | operator desc =>
    rw [if_neg (by simp [ElementKind.isFlowPart]), linesUnder?_box, labelOf, hk]
    simp only [Dot.lines_break, Dot.marks_text_text, Dot.lines_text, String.append_assoc]
  | _ =>
    rw [if_neg (by simp [ElementKind.isFlowPart]), linesUnder?_box, labelOf, hk]
    simp only [Dot.lines_text]

/-- The node of a site, with its names in the label. -/
structure IsNodeOf (s : Site) (n : Dot.Node) : Prop where
  id : n.id = s.nodeName
  label : Dot.linesUnder? "label" n.attributes = some (labelLines s.element)

/-- The edge of a connection runs from the node of the element that has the source to the node of
the element that has the target, and has the names of both ports at its ends. -/
structure IsEdgeOf (j : Enclosed × Connection) (e : Dot.Edge) : Prop where
  tail : ∃ x ∈ j.1.flow.elements, ∃ p ∈ x.outputs, p.id = j.2.source ∧
    e.tail = (j.1.site x).nodeName ∧ Dot.linesUnder? "taillabel" e.attributes = some [p.name]
  head : ∃ x ∈ j.1.flow.elements, ∃ p ∈ x.inputs, p.id = j.2.target ∧
    e.head = (j.1.site x).nodeName ∧ Dot.linesUnder? "headlabel" e.attributes = some [p.name]

/-- The cluster of a part, with its name in the title. -/
structure IsClusterOf (s : Site) (c : Dot.Cluster) : Prop where
  id : c.id = "cluster_" ++ s.nodeName
  title : c.title = some ["flow part: " ++ s.element.name]

/-- A drawing that shows the elements and connections at all depths, each of them once. -/
structure IsDrawing (g : FlowGraph) (d : Dot.Drawing) : Prop where
  sites : Enumerates g.sites g.IsSite
  nodes : List.Forall₂ IsNodeOf g.sites d.nodes
  distinct : (d.nodes.map (·.id)).Nodup
  joints : Enumerates g.joints fun j =>
    g.Encloses j.1.path j.1.flow ∧ j.2 ∈ j.1.flow.connections
  edges : List.Forall₂ IsEdgeOf g.joints d.edges
  declared : ∀ e ∈ d.edges, e.tail ∈ d.nodes.map (·.id) ∧ e.head ∈ d.nodes.map (·.id)
  clusters : List.Forall₂ IsClusterOf (g.sites.filter (·.element.isFlowPart)) d.clusters

theorem portName_eq (h : g.Coherent) (he : e ∈ g.elements) {p : Port} (hp : p ∈ e.ports) :
    g.portName p.id = p.name := by
  rw [portName, h.port?_of_mem he hp]
  rfl

theorem linesUnder?_ends (tail head : String) :
    Dot.linesUnder? "taillabel" (Dot.attributeTokens [⟨"taillabel", .string tail⟩,
      ⟨"headlabel", .string head⟩]) = some [tail] ∧
    Dot.linesUnder? "headlabel" (Dot.attributeTokens [⟨"taillabel", .string tail⟩,
      ⟨"headlabel", .string head⟩]) = some [head] :=
  ⟨congrArg some (Dot.lines_text tail), congrArg some (Dot.lines_text head)⟩

theorem drawnEdge_isEdgeOf {j : Enclosed × Connection} (h : j.1.flow.Coherent)
    (hj : j.2 ∈ j.1.flow.connections) :
    IsEdgeOf j (drawnEdge ("" ++ j.1.nodePrefix) j.1.flow j.2) := by
  obtain ⟨l, c⟩ := j
  dsimp only at h hj
  have hname : ∀ x : Element, nodeName ("" ++ l.nodePrefix) x.id = (l.site x).nodeName := by
    intro x
    rw [Enclosed.nodeName_site, nodeName, String.empty_append]
  obtain ⟨htail, hhead⟩ := linesUnder?_ends (l.flow.portName c.source) (l.flow.portName c.target)
  constructor
  · obtain ⟨x, hx, hp⟩ := h.source_mem hj
    obtain ⟨p, hpx, hid⟩ := List.mem_map.1 hp
    have hport : l.flow.portName c.source = p.name :=
      hid ▸ portName_eq h hx (List.mem_append_right _ hpx)
    refine ⟨x, hx, p, hpx, hid, ?_, htail.trans (by rw [hport])⟩
    rw [← hname, drawnEdge, h.ownerId?_of_output hx hp, Option.getD_some]
  · obtain ⟨x, hx, hp⟩ := h.target_mem hj
    obtain ⟨p, hpx, hid⟩ := List.mem_map.1 hp
    have hport : l.flow.portName c.target = p.name :=
      hid ▸ portName_eq h hx (List.mem_append_left _ hpx)
    refine ⟨x, hx, p, hpx, hid, ?_, hhead.trans (by rw [hport])⟩
    rw [← hname, drawnEdge, h.ownerId?_of_input hx hp, Option.getD_some]

theorem drawn_isDrawing (h : g.WellFormed) : g.IsDrawing (g.drawn "") := by
  have hids : (g.drawn "").nodes.map (·.id) = g.sites.map Site.nodeName := by
    rw [drawn, List.map_map]
    exact List.map_congr_left fun s _ => String.empty_append
  have hedges : ∀ j ∈ g.joints, IsEdgeOf j (drawnEdge ("" ++ j.1.nodePrefix) j.1.flow j.2) :=
    fun j hj =>
      have hin := (joints_enumerate h).exact j |>.1 hj
      drawnEdge_isEdgeOf (h.of_encloses hin.1).coherent hin.2
  have hdeclared : ∀ j ∈ g.joints, ∀ x ∈ j.1.flow.elements,
      (j.1.site x).nodeName ∈ g.sites.map Site.nodeName := fun j hj x hx =>
    List.mem_map_of_mem (mem_sites_of_isSite ⟨((joints_enumerate h).exact j |>.1 hj).1, hx⟩)
  refine ⟨sites_enumerate h, ?_, hids ▸ nodeNames_nodup h, joints_enumerate h, ?_, ?_, ?_⟩
  · refine List.forall₂_map_right_iff.2 (List.forall₂_same.2 fun s _ => ⟨?_, ?_⟩)
    · exact String.empty_append
    · exact label_nodeAttributes s.element
  · exact List.forall₂_map_right_iff.2 (List.forall₂_same.2 hedges)
  · intro e he
    obtain ⟨j, hj, rfl⟩ := List.mem_map.1 he
    obtain ⟨⟨x, hx, -, -, -, htail, -⟩, y, hy, -, -, -, hhead, -⟩ := hedges j hj
    rw [hids, htail, hhead]
    exact ⟨hdeclared j hj x hx, hdeclared j hj y hy⟩
  · refine List.forall₂_map_right_iff.2 (List.forall₂_same.2 fun s _ => ⟨?_, rfl⟩)
    rw [drawnCluster, String.empty_append]

end FlowGraph
end FlowPlan
