import Sui.Library.IndexMap
import Sui.Library.Word
import Sui.Move.Regex

/-!
# The regex borrow graph

`move-regex-borrow-graph/src/{references,graph_map,collections}.rs`: the references of a verified program as nodes, and between two
of them the regexes by which the one may extend the other. The checks that run only in debug builds are left out.
-/

namespace Sui.BorrowGraph

open Library Checked

/-- `InvariantViolation`, by the place that reports it. -/
inductive InvariantViolation where
  | missingRef
  | keyAlreadyExists
  | freshIdOverflow
  | failedToAddNode
  | failedToAddSelfEdge
  | refAlreadyExists
  | newImmRefsHaveEdges
  | edgeNotOfNewRef
  | noRegexes
  | selfEdgeNotEpsilon
  | failedToAddEdge
  | failedToRemoveNode
  | missingNode
  | refreshOfFresh
  | canonicalizeOfCanonical
  | missingRemapping
  | freshIdOfCanonical
  | failedToMinimize
  | failedToClear
deriving DecidableEq, Repr

inductive MeterError (ε : Type) where
  | meter (e : ε)
  | invariantViolation (v : InvariantViolation)
deriving DecidableEq, Repr

class Meter (μ : Type) (ε : outParam Type) where
  visitNodesImpl : μ → Nat → Except ε μ
  visitEdgesImpl : μ → Nat → Except ε μ

variable {μ ε : Type}

def visitNodes [Meter μ ε] (meter : μ) (numNodes : Nat) : Except (MeterError ε) μ :=
  (Meter.visitNodesImpl meter numNodes).mapError .meter

def visitEdges [Meter μ ε] (meter : μ) (totalEdgeSize : Nat) : Except (MeterError ε) μ :=
  (Meter.visitEdgesImpl meter totalEdgeSize).mapError .meter

instance dummyMeter : Meter Unit Unit where
  visitNodesImpl _ _ := .ok ()
  visitEdgesImpl _ _ := .ok ()

/-- A sum that is accumulated with `usize::saturating_add`. -/
def saturate (n : Nat) : Nat := min n (2 ^ 64 - 1)

/-! ## References and edges -/

inductive Ref where
  | canonical (id : Nat)
  | fresh (id : Nat)
deriving Repr

namespace Ref

/-- The variant and the id, in the order in which references are compared. -/
def key : Ref → Nat ×ₗ Nat
  | .canonical id => toLex (0, id)
  | .fresh id => toLex (1, id)

theorem key_injective : Function.Injective key := by
  intro a b h
  cases a <;> cases b <;> simp_all [key]

instance : LinearOrder Ref := LinearOrder.lift' key key_injective

def refresh : Ref → Except (MeterError ε) Ref
  | .canonical id => .ok (.fresh id)
  | .fresh _ => .error (.invariantViolation .refreshOfFresh)

def canonicalize (remapping : BTreeMap Ref Nat) : Ref → Except (MeterError ε) Ref
  | .canonical _ => .error (.invariantViolation .canonicalizeOfCanonical)
  | .fresh id => (expect remapping[Ref.fresh id]? (.invariantViolation .missingRemapping)).map .canonical

def freshId : Ref → Except (MeterError ε) Nat
  | .fresh id => .ok id
  | .canonical _ => .error (.invariantViolation .freshIdOfCanonical)

end Ref

structure NodeIndex where
  generation : Nat
  id : Nat
deriving Repr

namespace NodeIndex

/-- The fields in the order in which indices are compared. -/
def key (i : NodeIndex) : Nat ×ₗ Nat := toLex (i.generation, i.id)

theorem key_injective : Function.Injective key := by
  rintro ⟨⟩ ⟨⟩ h
  simpa [key] using h

instance : LinearOrder NodeIndex := LinearOrder.lift' key key_injective

end NodeIndex

structure Node where
  isMutable : Bool
  nodeIndex : NodeIndex

variable {Loc Lbl : Type} [LinearOrder Lbl]

structure Edge (Loc Lbl : Type) [LinearOrder Lbl] where
  abstractSize : Nat
  regexes : BTreeMap (Regex Lbl) Loc

namespace Edge

def new : Edge Loc Lbl := ⟨0, ∅⟩

/-- `insert`, with the increase of the size. -/
def insert (e : Edge Loc Lbl) (loc : Loc) (regex : Regex Lbl) : Edge Loc Lbl × Nat :=
  if e.regexes[regex]?.isSome then (e, 0) else
    (⟨saturate (e.abstractSize + regex.abstractSize), e.regexes.insert regex loc⟩, regex.abstractSize)

/-- `join`, with the increase of the size. -/
def join (e other : Edge Loc Lbl) : Edge Loc Lbl × Nat :=
  other.regexes.toList.foldl (fun acc r =>
    let (e', increase) := acc.1.insert r.2 r.1
    (e', saturate (acc.2 + increase))) (e, 0)

end Edge

/-! ## The graph of indices -/

structure GraphMap (N E : Type) where
  generation : Nat
  next : Nat
  nodeWeights : BTreeMap NodeIndex N
  edgeWeights : IndexMap (NodeIndex × NodeIndex) E

namespace GraphMap

variable {N E : Type}

def new : GraphMap N E := ⟨0, 0, ∅, .empty⟩

def clear (g : GraphMap N E) : Except Unit (GraphMap N E) := do
  let generation ← Word.add () 32 g.generation 1
  return ⟨generation, 0, ∅, .empty⟩

def minimize (g : GraphMap N E) : Except Unit (GraphMap N E) := do
  let generation ← Word.add () 32 g.generation 1
  return { g with
    generation := generation
    next := g.nodeWeights.keys.foldl (fun next index => max next (min (index.id + 1) (2 ^ 32 - 1))) 0 }

def containsNode (g : GraphMap N E) (index : NodeIndex) : Bool := g.nodeWeights[index]?.isSome

def addNode (g : GraphMap N E) (weight : N) : Except Unit (GraphMap N E × NodeIndex) := do
  let index : NodeIndex := ⟨g.generation, g.next⟩
  let next ← Word.add () 32 g.next 1
  assert (!g.containsNode index) ()
  return ({ g with next := next, nodeWeights := g.nodeWeights.insert index weight }, index)

def addEdge (g : GraphMap N E) (source : NodeIndex) (weight : E) (target : NodeIndex) : Except Unit (GraphMap N E) := do
  assert (g.containsNode source) ()
  assert (g.containsNode target) ()
  assert (g.edgeWeights.get (source, target)).isNone ()
  return { g with edgeWeights := g.edgeWeights.insert (source, target) weight }

def edgeWeight (g : GraphMap N E) (source target : NodeIndex) : Option E := g.edgeWeights.get (source, target)

def removeNode (g : GraphMap N E) (index : NodeIndex) : Except Unit (GraphMap N E) := do
  assert (g.containsNode index) ()
  return { g with
    nodeWeights := g.nodeWeights.erase index
    edgeWeights := g.edgeWeights.retain fun k _ => k.1 ≠ index && k.2 ≠ index }

def outgoingEdgesIdx (g : GraphMap N E) (index : NodeIndex) : List (E × NodeIndex) :=
  g.edgeWeights.entries.filterMap fun ((p, s), e) => if p = index then some (e, s) else none

def incomingEdgesIdx (g : GraphMap N E) (index : NodeIndex) : List (NodeIndex × E) :=
  g.edgeWeights.entries.filterMap fun ((p, s), e) => if s = index then some (p, e) else none

def allEdges (g : GraphMap N E) : Except Unit (List (N × E × N)) :=
  g.edgeWeights.entries.mapM fun ((p, s), e) => do
    let p ← expect g.nodeWeights[p]? ()
    let s ← expect g.nodeWeights[s]? ()
    return (p, e, s)

end GraphMap

/-! ## The graph of references -/

structure Graph (Loc Lbl : Type) [LinearOrder Lbl] where
  freshId : Nat
  nodes : BTreeMap Ref Node
  graph : GraphMap Ref (Edge Loc Lbl)

/-- The invariant violation that an error of the graph of indices is reported as. -/
def orViolation {α : Type} (x : Except Unit α) (v : InvariantViolation) : Except (MeterError ε) α :=
  x.mapError fun _ => .invariantViolation v

def ensure (c : Bool) (v : InvariantViolation) : Except (MeterError ε) Unit := assert c (.invariantViolation v)

/-- The edges to be added, by their two ends. -/
abbrev EdgesToAdd (Lbl : Type) := BTreeMap (NodeIndex ×ₗ NodeIndex) (List (Regex Lbl))

namespace Graph

variable (g : Graph Loc Lbl)

def node (r : Ref) : Except (MeterError ε) Node :=
  expect g.nodes[r]? (.invariantViolation .missingRef)

def isMutable (g : Graph Loc Lbl) (r : Ref) : Except (MeterError ε) Bool := (g.node r).map Node.isMutable

/-- The next id is a plain sum of `u32`: the model fails where a debug build panics and a release build wraps. -/
def addRef (loc : Loc) (isMut : Bool) : Except (MeterError ε) (Graph Loc Lbl × Ref × NodeIndex) := do
  let freshId ← Word.add (.invariantViolation .freshIdOverflow) 32 g.freshId 1
  let r := Ref.fresh g.freshId
  let (graph, idx) ← orViolation (g.graph.addNode r) .failedToAddNode
  let graph ← orViolation (graph.addEdge idx (Edge.new.insert loc Regex.epsilon).1 idx) .failedToAddSelfEdge
  ensure g.nodes[r]?.isNone .refAlreadyExists
  return (⟨freshId, g.nodes.insert r ⟨isMut, idx⟩, graph⟩, r, idx)

/-- `new`: the graph of the initial references, and the reference of each key. -/
def new {K : Type} [LinearOrder K] (initialRefs : List (K × Loc × Bool)) :
    Except (MeterError ε) (Graph Loc Lbl × BTreeMap K Ref) :=
  initialRefs.foldlM (fun (g, map) (k, loc, isMut) => do
    let (g, r, _) ← g.addRef loc isMut
    ensure map[k]?.isNone .keyAlreadyExists
    return (g, map.insert k r)) (⟨0, ∅, GraphMap.new⟩, ∅)

def edgeToAdd (acc : EdgesToAdd Lbl) (e : NodeIndex × Regex Lbl × NodeIndex) : EdgesToAdd Lbl :=
  acc.insert (toLex (e.1, e.2.2)) (acc[toLex (e.1, e.2.2)]?.getD [] ++ [e.2.1])

/-- The edges that `determine_all_new_edges` adds for an edge `x --> source`. -/
def newEdgesOfIncoming (ext : Extension Lbl) (newRefs : List NodeIndex) (x : NodeIndex) (edge : Edge Loc Lbl) :
    List (NodeIndex × Regex Lbl × NodeIndex) :=
  edge.regexes.keys.flatMap fun xToSource => newRefs.map fun newRef => (x, xToSource.extend ext, newRef)

/-- The edges that `determine_all_new_edges` adds for an edge `source --> x`. -/
def newEdgesOfOutgoing (ext : Extension Lbl) (newRefs : List NodeIndex) (edge : Edge Loc Lbl) (x : NodeIndex) :
    List (NodeIndex × Regex Lbl × NodeIndex) :=
  edge.regexes.keys.flatMap fun sourceToX =>
    ((sourceToX.removePrefix ext).flatMap fun suffix => newRefs.map fun newRef => (newRef, suffix, x)) ++
      (ext.removePrefix sourceToX).flatMap fun suffix => newRefs.map fun newRef => (x, suffix, newRef)

/-- The edges that `determine_all_new_edges` adds for one source, in order. -/
def newEdgesOfSource (ext : Extension Lbl) (newRefs : List NodeIndex) (source : NodeIndex) :
    List (NodeIndex × Regex Lbl × NodeIndex) :=
  ((g.graph.incomingEdgesIdx source).flatMap fun (x, edge) => newEdgesOfIncoming ext newRefs x edge) ++
    (g.graph.outgoingEdgesIdx source).flatMap fun (edge, x) => newEdgesOfOutgoing ext newRefs edge x

/-- The nodes that `determine_all_new_edges` visits for one source. -/
def nodesVisited (source : NodeIndex) : Nat :=
  1 + (g.graph.incomingEdgesIdx source).length + (g.graph.outgoingEdgesIdx source).length

/-- The regexes that `determine_all_new_edges` visits for one source. -/
def edgesVisited (source : NodeIndex) : Nat :=
  ((g.graph.incomingEdgesIdx source).map fun e => e.2.regexes.size).sum +
    ((g.graph.outgoingEdgesIdx source).map fun e => e.1.regexes.size).sum

def determineAllNewEdges [Meter μ ε] (g : Graph Loc Lbl) (acc : EdgesToAdd Lbl) (sources : BTreeSet NodeIndex)
    (ext : Extension Lbl) (newRefs : List NodeIndex) (meter : μ) : Except (MeterError ε) (EdgesToAdd Lbl × μ) := do
  let sources := BTreeSet.iter sources
  let added := sources.flatMap (g.newEdgesOfSource ext newRefs)
  let meter ← visitNodes meter (saturate (sources.map g.nodesVisited).sum)
  let meter ← visitEdges meter
    (saturate (sources.map g.edgesVisited).sum + saturate (added.map fun e => e.2.1.abstractSize).sum)
  return (added.foldl edgeToAdd acc, meter)

def addEdge (g : Graph Loc Lbl) (source : NodeIndex) (loc : Loc) (regexes : List (Regex Lbl)) (target : NodeIndex) :
    Except (MeterError ε) (Graph Loc Lbl) := do
  ensure (!regexes.isEmpty) .noRegexes
  if source = target then
    ensure (regexes.all Regex.isEpsilon) .selfEdgeNotEpsilon
    return g
  else
    let edge := regexes.foldl (fun edge r => (edge.insert loc r).1) Edge.new
    let graph ← orViolation (g.graph.addEdge source edge target) .failedToAddEdge
    return { g with graph := graph }

def addNewEdges (loc : Loc) (newRefs : List NodeIndex) (edgesToAdd : EdgesToAdd Lbl) : Except (MeterError ε) (Graph Loc Lbl) :=
  edgesToAdd.toList.foldlM (fun g (key, rs) => do
    let (p, s) := ofLex key
    ensure (newRefs.contains p || newRefs.contains s) .edgeNotOfNewRef
    g.addEdge p loc rs s) g

/-- The indices of references, as a set. -/
def nodeIndices (refs : List Ref) : Except (MeterError ε) (BTreeSet NodeIndex) := do
  let idxs ← refs.mapM fun r => (g.node r).map Node.nodeIndex
  return idxs.toFinset

/-- The common body of `extend_by_epsilon` and `extend_by_label`. -/
def extendBy [Meter μ ε] (g : Graph Loc Lbl) (loc : Loc) (sources : List Ref) (isMut : Bool) (ext : Extension Lbl)
    (meter : μ) : Except (MeterError ε) (Graph Loc Lbl × Ref × μ) := do
  let (g, newRef, newRefIdx) ← g.addRef loc isMut
  let sourceIdxs ← g.nodeIndices sources
  let (edgesToAdd, meter) ← g.determineAllNewEdges ∅ sourceIdxs ext [newRefIdx] meter
  let g ← g.addNewEdges loc [newRefIdx] edgesToAdd
  return (g, newRef, meter)

def extendByEpsilon [Meter μ ε] (g : Graph Loc Lbl) (loc : Loc) (sources : List Ref) (isMut : Bool) (meter : μ) :
    Except (MeterError ε) (Graph Loc Lbl × Ref × μ) :=
  g.extendBy loc sources isMut .epsilon meter

def extendByLabel [Meter μ ε] (g : Graph Loc Lbl) (loc : Loc) (sources : List Ref) (isMut : Bool) (extension : Lbl)
    (meter : μ) : Except (MeterError ε) (Graph Loc Lbl × Ref × μ) :=
  g.extendBy loc sources isMut (.label extension) meter

/-- The new references of a call, with their indices and mutabilities, in order. -/
def addRefs (loc : Loc) (mutabilities : List Bool) : Except (MeterError ε) (Graph Loc Lbl × List (Ref × NodeIndex × Bool)) :=
  mutabilities.foldlM (fun (g, refs) isMut => do
    let (g, r, idx) ← g.addRef loc isMut
    return (g, refs ++ [(r, idx, isMut)])) (g, [])

/-- The edges between the new immutable references of a call. -/
def addImmEdges (immNewRefs : List NodeIndex) (acc : EdgesToAdd Lbl) : Except (MeterError ε) (EdgesToAdd Lbl) :=
  (immNewRefs.flatMap fun x => (immNewRefs.filter fun y => x ≠ y).map fun y => (x, y)).foldlM (fun acc (x, y) => do
    ensure acc[toLex (x, y)]?.isNone .newImmRefsHaveEdges
    return acc.insert (toLex (x, y)) [.dotStar]) acc

def extendByDotStarForCall [Meter μ ε] (g : Graph Loc Lbl) (loc : Loc) (allSources : BTreeSet Ref)
    (mutabilities : List Bool) (meter : μ) : Except (MeterError ε) (Graph Loc Lbl × List Ref × μ) := do
  let allSourceIdxs ← g.nodeIndices (BTreeSet.iter allSources)
  let mutSources ← (BTreeSet.iter allSources).filterM g.isMutable
  let mutSourceIdxs ← g.nodeIndices mutSources
  let (g, newRefs) ← g.addRefs loc mutabilities
  let mutNewRefs := (newRefs.filter fun r => r.2.2).map fun r => r.2.1
  let immNewRefs := (newRefs.filter fun r => !r.2.2).map fun r => r.2.1
  let (acc, meter) ← g.determineAllNewEdges ∅ mutSourceIdxs .dotStar mutNewRefs meter
  let (acc, meter) ← g.determineAllNewEdges acc allSourceIdxs .dotStar immNewRefs meter
  let acc ← addImmEdges immNewRefs acc
  let g ← g.addNewEdges loc (mutNewRefs ++ immNewRefs) acc
  return (g, newRefs.map Prod.fst, meter)

def release [Meter μ ε] (g : Graph Loc Lbl) (r : Ref) (meter : μ) : Except (MeterError ε) (Graph Loc Lbl × μ) := do
  let meter ← visitNodes meter g.nodes.size
  let node ← g.node r
  let graph ← orViolation (g.graph.removeNode node.nodeIndex) .failedToRemoveNode
  return ({ g with nodes := g.nodes.erase r, graph := graph }, meter)

def releaseAll : Except (MeterError ε) (Graph Loc Lbl) := do
  let graph ← orViolation g.graph.clear .failedToClear
  return ⟨0, ∅, graph⟩

/-- One edge of the other graph in `join`, with the increase of the size. -/
def joinEdge (p : Ref) (otherEdge : Edge Loc Lbl) (s : Ref) : Except (MeterError ε) (Graph Loc Lbl × Nat) :=
  if g.nodes[p]?.isNone || g.nodes[s]?.isNone then .ok (g, 0) else do
    let pIdx := (← g.node p).nodeIndex
    let sIdx := (← g.node s).nodeIndex
    let (edge, increase) :=
      match g.graph.edgeWeight pIdx sIdx with
      | some selfEdge => selfEdge.join otherEdge
      | none => (otherEdge, otherEdge.abstractSize)
    return ({ g with graph := { g.graph with edgeWeights := g.graph.edgeWeights.insert (pIdx, sIdx) edge } }, increase)

/-- `join`: whether the graph changed. -/
def join [Meter μ ε] (g other : Graph Loc Lbl) (meter : μ) : Except (MeterError ε) (Graph Loc Lbl × Bool × μ) := do
  let otherEdges ← orViolation other.graph.allEdges .missingNode
  let (g, increase) ← otherEdges.foldlM (fun (g, increase) (p, edge, s) => do
    let (g, n) ← g.joinEdge p edge s
    return (g, saturate (increase + n))) (g, 0)
  let meter ← visitNodes meter g.nodes.size
  let meter ← visitEdges meter increase
  return (g, decide (0 < increase), meter)

/-- A reference under its new name, in the loops of `refresh_refs` and `canonicalize`. -/
def renameNode (rename : Ref → Except (MeterError ε) Ref) (graph : GraphMap Ref (Edge Loc Lbl)) (nodes : BTreeMap Ref Node)
    (r : Ref) (node : Node) : Except (MeterError ε) (GraphMap Ref (Edge Loc Lbl) × BTreeMap Ref Node × Ref) := do
  ensure (graph.containsNode node.nodeIndex) .missingNode
  let r' ← rename r
  return ({ graph with nodeWeights := graph.nodeWeights.insert node.nodeIndex r' }, nodes.insert r' node, r')

def refreshRefs : Except (MeterError ε) (Graph Loc Lbl) :=
  g.nodes.toList.foldlM (fun g (r, node) => do
    let (graph, nodes, rFresh) ← renameNode Ref.refresh g.graph g.nodes r node
    let freshId ← rFresh.freshId
    let succ ← Word.add (.invariantViolation .freshIdOverflow) 32 freshId 1
    return ⟨max g.freshId succ, nodes, graph⟩) ⟨0, ∅, g.graph⟩

def canonicalize (g : Graph Loc Lbl) (remapping : BTreeMap Ref Nat) : Except (MeterError ε) (Graph Loc Lbl) := do
  let g ← g.nodes.toList.foldlM (fun g (r, node) => do
    let (graph, nodes, _) ← renameNode (Ref.canonicalize remapping) g.graph g.nodes r node
    return ⟨0, nodes, graph⟩) (⟨0, ∅, g.graph⟩ : Graph Loc Lbl)
  let graph ← orViolation g.graph.minimize .failedToMinimize
  return { g with graph := graph }

/-! ## What the edges say -/

/-- A regex is among the edges to be added. -/
def Has (acc : EdgesToAdd Lbl) (p : NodeIndex) (r : Regex Lbl) (s : NodeIndex) : Prop :=
  ∃ rs, acc[toLex (p, s)]? = some rs ∧ r ∈ rs

end Graph

/-- A word is matched by a regex of the edge. -/
def Edge.Matches (e : Edge Loc Lbl) (w : List Lbl) : Prop := ∃ r : Regex Lbl, e.regexes[r]?.isSome ∧ r.Matches w

end Sui.BorrowGraph
