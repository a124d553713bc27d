import LogCache.StoreTransitions

namespace LogCache.Traversal

open AvlNode Envelopes EnvelopeStore

def isNodeAFudgeSequenceMember (node : Node Int64 Envelope) (nextChildIndex : Side) : Bool :=
  match node with
  | .nil => false
  | .node _ key e _ _ =>
      if e.timestamp ≠ key then true
      else
        match node.child nextChildIndex with
        | .nil => false
        | .node _ nextKey next _ _ => decide (next.timestamp ≠ nextKey)

section traverse

variable {m : Type → Type} [Monad m]

/-- Whether to stop at a node, unless it is a member of a fudge sequence. -/
def stopAt (past : Int64 → Bool) (f : Envelope → m Bool) (e : Envelope) : m Bool :=
  if past e.timestamp then pure true else f e

/-- The body of both traversals at one node: `near` and `far` are the recursive
calls, in the order in which the children are visited. -/
def visitNode (skip past : Int64 → Bool) (f : Envelope → m Bool) (e : Envelope) (member : Bool)
    (near far : m Bool) : m Bool :=
  if skip e.timestamp then far
  else do
    if ← near then return true
    else if (← stopAt past f e) && !member then return true
    else far

def treeAscTraverse (start stop : Int64) (f : Envelope → m Bool) : Node Int64 Envelope → m Bool
  | .nil => pure false
  | .node l k e r b =>
      visitNode (fun t => !decide (start ≤ t)) (fun t => decide (stop ≤ t)) f e
        (isNodeAFudgeSequenceMember (.node l k e r b) .right)
        (treeAscTraverse start stop f l) (treeAscTraverse start stop f r)

def treeDescTraverse (start stop : Int64) (f : Envelope → m Bool) : Node Int64 Envelope → m Bool
  | .nil => pure false
  | .node l k e r b =>
      visitNode (fun t => !decide (t < stop)) (fun t => decide (t < start)) f e
        (isNodeAFudgeSequenceMember (.node l k e r b) .left)
        (treeDescTraverse start stop f r) (treeDescTraverse start stop f l)

end traverse

def filterByName (envelope : Envelope) : Option (String → Bool) → Option Envelope
  | none => some envelope
  | some matchString =>
      match envelope.message with
      | .counter name _ _ => if matchString name then some envelope else none
      | .gauge metrics =>
          let filteredMetrics := metrics.filter matchString
          if filteredMetrics = ∅ then none
          else some { envelope with message := .gauge filteredMetrics }
      | .timer name _ _ => if matchString name then some envelope else none
      | .unset | .log _ _ | .event _ _ => none

def hasType (e : Envelope) : EnvelopeType → Bool
  | .any => true
  | .log => match e.message with | .log _ _ => true | _ => false
  | .counter => match e.message with | .counter _ _ _ => true | _ => false
  | .gauge => match e.message with | .gauge _ => true | _ => false
  | .timer => match e.message with | .timer _ _ _ => true | _ => false
  | .event => match e.message with | .event _ _ => true | _ => false
  | .unrecognized _ => false

def checkEnvelopeType (e : Envelope) : EnvelopeType → Except Panic Bool
  | .unrecognized _ => .error .unknownType
  | t => .ok (hasType e t)

def anyEnvelopeType (e : Envelope) : List EnvelopeType → Except Panic Bool
  | [] => .ok false
  | t :: types => do if ← checkEnvelopeType e t then return true else anyEnvelopeType e types

def validEnvelopeType (e : Envelope) : Option (List EnvelopeType) → Except Panic Bool
  | none => .ok true
  | some types => anyEnvelopeType e types

/-- The function `Get` gives to the traverser: it appends to the result and
says whether to stop. -/
def collect (envelopeTypes : Option (List EnvelopeType)) (nameFilter : Option (String → Bool))
    (limit : Int) (e : Envelope) : StateT (List Envelope) (Except Panic) Bool := fun res =>
  match filterByName e nameFilter with
  | none => .ok (false, res)
  | some e => do
      let res := if ← validEnvelopeType e envelopeTypes then res ++ [e] else res
      return (decide (limit ≤ res.length), res)

def get (s : Store) (index : String) (start stop : Int64)
    (envelopeTypes : Option (List EnvelopeType)) (nameFilter : Option (String → Bool)) (limit : Int)
    (descending : Bool) : Except Panic (List Envelope) :=
  match s.storageIndex.lookup index with
  | none => .ok []
  | some storage => do
      let f := collect envelopeTypes nameFilter limit
      let (_, res) ←
        if descending then treeDescTraverse start stop f storage.tree.root []
        else treeAscTraverse start stop f storage.tree.root []
      return res

structure Visit where
  key : Int64
  envelope : Envelope
  member : Bool

/-- The nodes in the order of a traversal that starts on side `near`. -/
def visits (near : Side) : Node Int64 Envelope → List Visit
  | .nil => []
  | .node l k e r b =>
      let here : Visit := ⟨k, e, isNodeAFudgeSequenceMember (.node l k e r b) near.flip⟩
      match near with
      | .left => visits near l ++ here :: visits near r
      | .right => visits near r ++ here :: visits near l

def reached (near : Side) (skip : Int64 → Bool) : Node Int64 Envelope → List Visit
  | .nil => []
  | .node l k e r b =>
      let here : Visit := ⟨k, e, isNodeAFudgeSequenceMember (.node l k e r b) near.flip⟩
      match near with
      | .left => if skip e.timestamp then reached near skip r
        else reached near skip l ++ here :: reached near skip r
      | .right => if skip e.timestamp then reached near skip l
        else reached near skip r ++ here :: reached near skip l

theorem visits_node (near : Side) (l : Node Int64 Envelope) (k : Int64) (e : Envelope)
    (r : Node Int64 Envelope) (b : Int) :
    visits near (.node l k e r b) =
      visits near (Node.child near (.node l k e r b)) ++
        ⟨k, e, isNodeAFudgeSequenceMember (.node l k e r b) near.flip⟩ ::
          visits near (Node.child near.flip (.node l k e r b)) := by
  cases near <;> rfl

theorem reached_node (near : Side) (skip : Int64 → Bool) (l : Node Int64 Envelope) (k : Int64)
    (e : Envelope) (r : Node Int64 Envelope) (b : Int) :
    reached near skip (.node l k e r b) =
      if skip e.timestamp then reached near skip (Node.child near.flip (.node l k e r b))
      else reached near skip (Node.child near (.node l k e r b)) ++
        ⟨k, e, isNodeAFudgeSequenceMember (.node l k e r b) near.flip⟩ ::
          reached near skip (Node.child near.flip (.node l k e r b)) := by
  cases near <;> rfl

section lawful

variable {m : Type → Type} [Monad m] [LawfulMonad m]

def visitStep (past : Int64 → Bool) (f : Envelope → m Bool) (v : Visit) : m Bool := do
  return (← stopAt past f v.envelope) && !v.member

omit [LawfulMonad m] in
theorem visitStep_of_past {past : Int64 → Bool} {v : Visit} (h : past v.envelope.timestamp = true)
    (f : Envelope → m Bool) :
    visitStep past f v = (pure true : m Bool) >>= fun stop => pure (stop && !v.member) := by
  rw [visitStep, stopAt, if_pos h]

omit [LawfulMonad m] in
theorem visitStep_of_not_past {past : Int64 → Bool} {v : Visit}
    (h : past v.envelope.timestamp = false) (f : Envelope → m Bool) :
    visitStep past f v = f v.envelope >>= fun stop => pure (stop && !v.member) := by
  rw [visitStep, stopAt, if_neg (Bool.not_eq_true _ ▸ h)]

theorem anyM_append {α : Type} (p : α → m Bool) (xs ys : List α) :
    (xs ++ ys).anyM p = xs.anyM p >>= fun found => if found then pure true else ys.anyM p := by
  induction xs with
  | nil => simp [List.anyM]
  | cons x xs ih =>
      simp only [List.cons_append, List.anyM, bind_assoc]
      congr
      funext b
      cases b with
      | false => exact ih
      | true => simp

theorem visitNode_anyM (skip past : Int64 → Bool) (f : Envelope → m Bool) (v : Visit)
    (near far : List Visit) :
    visitNode skip past f v.envelope v.member (near.anyM (visitStep past f))
      (far.anyM (visitStep past f)) =
      (if skip v.envelope.timestamp then far else near ++ v :: far).anyM (visitStep past f) := by
  rw [visitNode]
  cases skip v.envelope.timestamp with
  | true => rfl
  | false =>
      simp only [Bool.false_eq_true, if_false, anyM_append, List.anyM, visitStep,
        bind_assoc, pure_bind]
      congr
      funext found
      cases found with
      | true => rfl
      | false =>
          simp only [Bool.false_eq_true, if_false]
          congr
          funext stop
          cases stop && !v.member <;> rfl

theorem treeAscTraverse_eq (start stop : Int64) (f : Envelope → m Bool) (n : Node Int64 Envelope) :
    treeAscTraverse start stop f n =
      (reached .left (fun t => !decide (start ≤ t)) n).anyM
        (visitStep (fun t => decide (stop ≤ t)) f) := by
  induction n with
  | nil => rfl
  | node l k e r b ihl ihr =>
      rw [treeAscTraverse, ihl, ihr, reached]
      exact visitNode_anyM _ _ f ⟨k, e, _⟩ _ _

theorem treeDescTraverse_eq (start stop : Int64) (f : Envelope → m Bool) (n : Node Int64 Envelope) :
    treeDescTraverse start stop f n =
      (reached .right (fun t => !decide (t < stop)) n).anyM
        (visitStep (fun t => decide (t < start)) f) := by
  induction n with
  | nil => rfl
  | node l k e r b ihl ihr =>
      rw [treeDescTraverse, ihl, ihr, reached]
      exact visitNode_anyM _ _ f ⟨k, e, _⟩ _ _

end lawful

section anyM

variable {f : Visit → StateT (List Envelope) (Except Panic) Bool} {v : Visit} {res : List Envelope}

theorem anyM_nil : [].anyM f res = .ok (false, res) := rfl

theorem anyM_cons_of_ok {b : Bool} {res' : List Envelope} (h : f v res = .ok (b, res'))
    (vs : List Visit) :
    (v :: vs).anyM f res = if b then .ok (true, res') else vs.anyM f res' := by
  simp only [List.anyM, bind, StateT.bind, h, Except.bind]
  cases b <;> rfl

theorem anyM_cons_of_error {p : Panic} (h : f v res = .error p) (vs : List Visit) :
    (v :: vs).anyM f res = .error p := by
  simp only [List.anyM, bind, StateT.bind, h, Except.bind]

end anyM

end LogCache.Traversal
