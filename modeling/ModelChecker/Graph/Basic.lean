namespace ModelChecker

abbrev Node := UInt32

/-- What an edge carries: whether taking it is an error, and whether it switches the context. -/
structure EdgeFlags where
  error : Bool := false
  contextSwitch : Bool := false
deriving DecidableEq, Repr, Inhabited

/-- One successor of a state, with the flags of the edge that leads to it. -/
abbrev Successor (σ : Type) := σ × EdgeFlags

structure Edge where
  source : Node
  target : Node
  flags : EdgeFlags := {}
deriving DecidableEq, Repr

def Edge.switching (e : Edge) : Edge :=
  { e with flags.contextSwitch := true }

def Edge.erroneous (e : Edge) : Edge :=
  { e with flags.error := true }

/-- Puts an entry at its place in an ascending list; an entry of the same node is replaced. -/
def AmpleSets.place (node : Node) (targets : List Node) :
    List (Node × List Node) → List (Node × List Node)
  | [] => [(node, targets)]
  | e :: rest =>
    if node < e.1 then (node, targets) :: e :: rest
    else if node = e.1 then (node, targets) :: rest
    else e :: place node targets rest

theorem AmpleSets.mem_place {node : Node} {targets : List Node} {l : List (Node × List Node)}
    {e : Node × List Node} (h : e ∈ place node targets l) : e = (node, targets) ∨ e ∈ l := by
  induction l with
  | nil => simpa [place] using h
  | cons d rest ih =>
    unfold place at h
    split at h
    · simpa using h
    · split at h
      · rcases List.mem_cons.1 h with h | h
        · exact .inl h
        · exact .inr (List.mem_cons_of_mem _ h)
      · rcases List.mem_cons.1 h with h | h
        · exact .inr (h ▸ List.mem_cons_self)
        · rcases ih h with h | h
          · exact .inl h
          · exact .inr (List.mem_cons_of_mem _ h)

theorem AmpleSets.place_ascending (node : Node) (targets : List Node)
    {l : List (Node × List Node)} (h : l.Pairwise fun a b => a.1 < b.1) :
    (place node targets l).Pairwise fun a b => a.1 < b.1 := by
  induction l with
  | nil => simp [place]
  | cons d rest ih =>
    obtain ⟨hd, hrest⟩ := List.pairwise_cons.1 h
    unfold place
    split
    case isTrue hlt =>
      refine List.pairwise_cons.2 ⟨fun e he => ?_, h⟩
      rcases List.mem_cons.1 he with rfl | he
      · exact hlt
      · exact UInt32.lt_trans hlt (hd e he)
    case isFalse hge =>
      split
      case isTrue heq =>
        exact List.pairwise_cons.2 ⟨fun e he => heq ▸ hd e he, hrest⟩
      case isFalse hne =>
        refine List.pairwise_cons.2 ⟨fun e he => ?_, ih hrest⟩
        rcases mem_place he with rfl | he
        · exact UInt32.lt_of_le_of_ne (UInt32.not_lt.1 hge) (fun h => hne h.symm)
        · exact hd e he

/-- A finite map from nodes to the successors of their ample sets, ascending by node. -/
structure AmpleSets where
  entries : List (Node × List Node)
  ascending : entries.Pairwise fun a b => a.1 < b.1
deriving DecidableEq, Repr

namespace AmpleSets

def empty : AmpleSets := ⟨[], .nil⟩

instance : Inhabited AmpleSets := ⟨empty⟩

/-- Sets the ample set of `node`, in place of an earlier one. -/
def insert (a : AmpleSets) (node : Node) (targets : List Node) : AmpleSets :=
  ⟨place node targets a.entries, place_ascending node targets a.ascending⟩

end AmpleSets

/-- A transition system as it is written down. -/
structure Graph where
  initial : List Node := []
  edges : List Edge := []
  accepting : List Node := []
  goals : List Node := []
  ample : AmpleSets := .empty
deriving DecidableEq, Repr, Inhabited

namespace Graph

def addEdge (g : Graph) (e : Edge) : Graph :=
  { g with edges := g.edges ++ [e] }

def addPlainEdges (g : Graph) (pairs : List (Node × Node)) : Graph :=
  { g with edges := g.edges ++ pairs.map fun p => { source := p.1, target := p.2 } }

def addAccepting (g : Graph) (nodes : List Node) : Graph :=
  { g with accepting := g.accepting ++ nodes }

def addGoals (g : Graph) (nodes : List Node) : Graph :=
  { g with goals := g.goals ++ nodes }

def setAmple (g : Graph) (node : Node) (targets : List Node) : Graph :=
  { g with ample := g.ample.insert node targets }

def extent (g : Graph) : Nat :=
  g.initial.length + g.edges.length

/-- No node has more successors than this, nor its ample set, with repeated entries counted. -/
def degree (g : Graph) : Nat :=
  g.edges.length * (g.ample.entries.foldl (fun d e => max d e.2.length) 1)

end Graph

end ModelChecker
