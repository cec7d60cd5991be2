import Dexfin.Stellar.QuorumSet
import Dexfin.Lib.Worklist

/-!
# Is a node in the transitive quorum? (`scp/LocalNode.cpp`, `scp/Slot.cpp`, `scp/SCP.cpp`)

`LocalNode::isNodeInQuorum` starts at the local node and searches transitively. A node's
successors are the nodes of the quorum sets of the statements it sent. The search keeps a
`std::unordered_set` backlog and a set of visited nodes. It answers `TB_TRUE` as soon as it
takes the node asked about. It answers `TB_MAYBE` when some node it visited sent no statement,
or sent a statement whose quorum set is unknown. Otherwise it answers `TB_FALSE`.

The order in which `backlog.begin()` hands out nodes is an argument `order` of the model. The
answer does not depend on it (`isNodeInQuorum_eq_quorumAnswer`): it is `quorumAnswer`, read off
reachability in the graph of statements. The search is an instance of `Worklist`: each
iteration is a `Worklist.Visit`. The loop ends within one iteration per node that the local
node or a quorum set of a known statement names, and that many iterations are the fuel of the
model.

`Slot::isNodeInQuorum` groups the statements of a slot's history by the node that sent them.
`SCP::isNodeInQuorum` asks the slots from the most recent down, until one gives a definite
answer.
-/

namespace Dexfin.Stellar

/-- `SCP::TriBool`. -/
inductive TriBool where
  | tbTrue
  | tbFalse
  | tbMaybe
  deriving DecidableEq, Repr

namespace LocalNode

open SCPQuorumSet

variable {N S : Type*} [DecidableEq N]

/-! ## The code -/

/-- `LocalNode::forAllNodes`: `proc` on each node of `qset` in the order
`forAllNodesInternal` meets them, the first time only (its `done` set). -/
def forAllNodes {β : Type*} (qset : SCPQuorumSet N) (proc : β → N → β) (acc : β) : β :=
  ((allNodes qset).foldl
    (fun (s : List N × β) n => if n ∈ s.1 then s else (Worklist.setInsert s.1 n, proc s.2 n))
    ([], acc)).2

/-- The `for` loop over the statements of the node taken. A statement whose quorum set `qfun`
cannot find makes the answer `TB_MAYBE`. The nodes of the other quorum sets that are not
visited join the backlog. -/
def exploreStatements (qfun : S → Option (SCPQuorumSet N)) (visited : List N) :
    List S → List N → TriBool → List N × TriBool
  | [], backlog, res => (backlog, res)
  | st :: sts, backlog, res =>
    match qfun st with
    | none => exploreStatements qfun visited sts backlog .tbMaybe
    | some qset =>
      exploreStatements qfun visited sts (forAllNodes qset (Worklist.insertNew visited) backlog) res

/-- The `while` loop of `isNodeInQuorum`, for at most `fuel` iterations. `k` counts them,
and `order` stands for the order in which `backlog.begin()` hands out the nodes of the
`std::unordered_set`. -/
def isNodeInQuorumLoop (node : N) (qfun : S → Option (SCPQuorumSet N))
    (map : List (N × List S)) (order : ℕ → ℕ) :
    ℕ → ℕ → List N → List N → TriBool → TriBool
  | 0, _, _, _, res => res
  | fuel + 1, k, backlog, visited, res =>
    match Worklist.pick order k backlog with
    | none => res
    | some c =>
      if c = node then .tbTrue
      else
        match List.lookup c map with
        -- can't lookup information on this node
        | none => isNodeInQuorumLoop node qfun map order fuel (k + 1) (backlog.erase c)
            (Worklist.setInsert visited c) .tbMaybe
        | some sts =>
          let r := exploreStatements qfun (Worklist.setInsert visited c) sts (backlog.erase c) res
          isNodeInQuorumLoop node qfun map order fuel (k + 1) r.1 (Worklist.setInsert visited c) r.2

/-- The nodes the search can meet: the local node and the nodes of the quorum sets of the
statements in `map`. -/
def knownNodes (mNodeID : N) (qfun : S → Option (SCPQuorumSet N)) (map : List (N × List S)) :
    List N :=
  mNodeID :: map.flatMap fun e => e.2.flatMap fun st => (qfun st).elim [] allNodes

/-- `LocalNode::isNodeInQuorum`. The loop visits each node at most once, and only nodes of
`knownNodes`, so one iteration more than these is enough fuel. -/
def isNodeInQuorum (mNodeID node : N) (qfun : S → Option (SCPQuorumSet N))
    (map : List (N × List S)) (order : ℕ → ℕ) : TriBool :=
  isNodeInQuorumLoop node qfun map order ((knownNodes mNodeID qfun map).length + 1) 0
    [mNodeID] [] .tbFalse

example : isNodeInQuorum (S := ℕ) 0 2 (fun st => some (⟨1, [st], []⟩ : SCPQuorumSet ℕ))
    [(0, [1]), (1, [2])] id = .tbTrue := by
  decide

example : isNodeInQuorum (S := ℕ) 0 3 (fun st => some (⟨1, [st], []⟩ : SCPQuorumSet ℕ))
    [(0, [1])] id = .tbMaybe := by
  decide

/-! ## What the search is for -/

/-- The successors of `c`: the nodes of the quorum sets of the statements `c` sent. -/
def quorumNodes (qfun : S → Option (SCPQuorumSet N)) (stmts : N → Option (List S)) (c : N) :
    List N :=
  match stmts c with
  | none => []
  | some sts => sts.flatMap fun st => (qfun st).elim [] allNodes

/-- The search lacks information on `c`: `c` sent no statement, or one whose quorum set is
unknown. -/
def missingInfo (qfun : S → Option (SCPQuorumSet N)) (stmts : N → Option (List S)) (c : N) :
    Bool :=
  match stmts c with
  | none => true
  | some sts => sts.any fun st => (qfun st).isNone

open Classical in
/-- The answer of the search: `TB_TRUE` when `node` is reachable from `mNodeID` through the
quorum sets of the statements, and otherwise `TB_MAYBE` exactly when information on a
reachable node is missing. -/
noncomputable def quorumAnswer (mNodeID node : N) (qfun : S → Option (SCPQuorumSet N))
    (stmts : N → Option (List S)) : TriBool :=
  if Worklist.Reach (quorumNodes qfun stmts) mNodeID node then .tbTrue
  else if ∃ x, Worklist.Reach (quorumNodes qfun stmts) mNodeID x ∧ missingInfo qfun stmts x = true
    then .tbMaybe
  else .tbFalse

/-! ## The loops, read off -/

/-- A node met in the search is in `knownNodes`. -/
theorem mem_knownNodes_of_mem_quorumNodes {mNodeID c x : N} {qfun : S → Option (SCPQuorumSet N)}
    {map : List (N × List S)} (hx : x ∈ quorumNodes qfun (List.lookup · map) c) :
    x ∈ knownNodes mNodeID qfun map := by
  cases hc : List.lookup c map with
  | none => simp [quorumNodes, hc] at hx
  | some sts =>
    simp only [quorumNodes, hc] at hx
    obtain ⟨l₁, l₂, hmap, -⟩ := List.lookup_eq_some_iff.mp hc
    refine List.mem_cons_of_mem _ (List.mem_flatMap.mpr ⟨(c, sts), ?_, hx⟩)
    simp [hmap]

/-- Inserting a node the set holds, or one of `V`, changes nothing. -/
theorem insertNew_of_mem {V b : List N} {n : N} (h : n ∈ b ∨ n ∈ V) :
    Worklist.insertNew V b n = b := by
  unfold Worklist.insertNew Worklist.setInsert
  by_cases hV : n ∈ V
  · rw [if_pos hV]
  · rw [if_neg hV, if_pos (h.resolve_right hV)]

/-- The `done` set of `forAllNodes` skips only nodes that `insertNew` would skip too. -/
theorem foldl_done_insertNew {V : List N} (ns : List N) {done b : List N}
    (hdone : ∀ d ∈ done, d ∈ b ∨ d ∈ V) :
    (ns.foldl (fun (s : List N × List N) n =>
      if n ∈ s.1 then s else (Worklist.setInsert s.1 n, Worklist.insertNew V s.2 n))
        (done, b)).2 = ns.foldl (Worklist.insertNew V) b := by
  induction ns generalizing done b with
  | nil => rfl
  | cons n ns ih =>
    rw [List.foldl_cons, List.foldl_cons]
    by_cases hn : n ∈ done
    · rw [if_pos hn, insertNew_of_mem (hdone n hn)]
      exact ih hdone
    · rw [if_neg hn]
      refine ih fun d hd => ?_
      rcases Worklist.mem_setInsert.mp hd with hd | rfl
      · exact (hdone d hd).imp_left fun h => Worklist.mem_insertNew.mpr (Or.inl h)
      · by_cases hV : d ∈ V
        · exact Or.inr hV
        · exact Or.inl (Worklist.mem_insertNew.mpr (Or.inr ⟨rfl, hV⟩))

theorem forAllNodes_insertNew (qset : SCPQuorumSet N) (V b : List N) :
    forAllNodes qset (Worklist.insertNew V) b = (allNodes qset).foldl (Worklist.insertNew V) b :=
  foldl_done_insertNew _ fun _ hd => absurd hd List.not_mem_nil

/-- The nodes `forAllNodes` hands on: each node of `l` the first time it occurs, unless `done`
holds it. -/
def firstsFrom (done : List N) : List N → List N
  | [] => []
  | n :: l => if n ∈ done then firstsFrom done l else n :: firstsFrom (Worklist.setInsert done n) l

theorem mem_firstsFrom {done l : List N} {x : N} : x ∈ firstsFrom done l ↔ x ∈ l ∧ x ∉ done := by
  induction l generalizing done with
  | nil => simp [firstsFrom]
  | cons n l ih =>
    by_cases hn : n ∈ done
    · rw [firstsFrom, if_pos hn, ih]
      constructor
      · rintro ⟨hx, hxd⟩
        exact ⟨List.mem_cons_of_mem n hx, hxd⟩
      · rintro ⟨hx, hxd⟩
        rcases List.mem_cons.mp hx with rfl | hx
        · exact absurd hn hxd
        · exact ⟨hx, hxd⟩
    · rw [firstsFrom, if_neg hn, List.mem_cons, ih, Worklist.mem_setInsert, List.mem_cons]
      constructor
      · rintro (rfl | ⟨hx, hxd⟩)
        · exact ⟨Or.inl rfl, hn⟩
        · exact ⟨Or.inr hx, fun h => hxd (Or.inl h)⟩
      · rintro ⟨rfl | hx, hxd⟩
        · exact Or.inl rfl
        · by_cases hxn : x = n
          · exact Or.inl hxn
          · exact Or.inr ⟨hx, fun h => h.elim hxd hxn⟩

/-- The loop with a `done` set calls `proc` on the first occurrences, in order. -/
theorem foldl_done {β : Type*} (proc : β → N → β) (l : List N) (done : List N) (acc : β) :
    (l.foldl (fun (s : List N × β) n =>
      if n ∈ s.1 then s else (Worklist.setInsert s.1 n, proc s.2 n)) (done, acc)).2 =
        (firstsFrom done l).foldl proc acc := by
  induction l generalizing done acc with
  | nil => rfl
  | cons n l ih =>
    by_cases hn : n ∈ done
    · rw [List.foldl_cons, if_pos hn, ih, firstsFrom, if_pos hn]
    · rw [List.foldl_cons, if_neg hn, ih, firstsFrom, if_neg hn, List.foldl_cons]

/-- `forAllNodes` is a loop over the nodes of the set, each taken once. -/
theorem forAllNodes_eq {β : Type*} (qset : SCPQuorumSet N) (proc : β → N → β) (acc : β) :
    forAllNodes qset proc acc = (firstsFrom [] (allNodes qset)).foldl proc acc :=
  foldl_done proc _ [] acc

/-- The backlog after the statements: the nodes of their known quorum sets not in `V`. -/
theorem exploreStatements_fst (qfun : S → Option (SCPQuorumSet N)) (V : List N) (sts : List S)
    (b : List N) (res : TriBool) :
    (exploreStatements qfun V sts b res).1 =
      (sts.flatMap fun st => (qfun st).elim [] allNodes).foldl (Worklist.insertNew V) b := by
  induction sts generalizing b res with
  | nil => rfl
  | cons st sts ih =>
    cases hq : qfun st with
    | none => simp [exploreStatements, hq, ih]
    | some qset =>
      simp only [exploreStatements, hq, ih, List.flatMap_cons, Option.elim, List.foldl_append,
        forAllNodes_insertNew]

/-- The answer after the statements: `TB_MAYBE` when a quorum set is unknown. -/
theorem exploreStatements_snd (qfun : S → Option (SCPQuorumSet N)) (V : List N) (sts : List S)
    (b : List N) (res : TriBool) :
    (exploreStatements qfun V sts b res).2 =
      if sts.any (fun st => (qfun st).isNone) then .tbMaybe else res := by
  induction sts generalizing b res with
  | nil => rfl
  | cons st sts ih =>
    cases hq : qfun st with
    | none =>
      simp only [exploreStatements, hq, ih, List.any_cons, Option.isNone_none, Bool.true_or]
      split_ifs <;> rfl
    | some qset => simp only [exploreStatements, hq, ih, List.any_cons, Option.isNone_some,
        Bool.false_or]

variable {node : N} {qfun : S → Option (SCPQuorumSet N)} {map : List (N × List S)}
  {order : ℕ → ℕ}

/-- One iteration of the loop that does not take `node`: the node taken is visited, the nodes
of its quorum sets not visited join the backlog, and the answer turns to `TB_MAYBE` when
information on it is missing. -/
theorem isNodeInQuorumLoop_succ {fuel k : ℕ} {b v : List N} {res : TriBool} {c : N}
    (hpick : Worklist.pick order k b = some c) (hc : c ≠ node) :
    isNodeInQuorumLoop node qfun map order (fuel + 1) k b v res =
      isNodeInQuorumLoop node qfun map order fuel (k + 1)
        ((quorumNodes qfun (List.lookup · map) c).foldl
          (Worklist.insertNew (Worklist.setInsert v c)) (b.erase c))
        (Worklist.setInsert v c)
        (if missingInfo qfun (List.lookup · map) c then .tbMaybe else res) := by
  simp only [isNodeInQuorumLoop, hpick, if_neg hc]
  cases hl : List.lookup c map with
  | none => simp [quorumNodes, missingInfo, hl]
  | some sts => simp only [quorumNodes, missingInfo, hl, exploreStatements_fst,
      exploreStatements_snd]

/-- The run lemma: from a state that keeps the invariant of the search, with the answer so far
read off the visited nodes and enough fuel for the nodes not visited, the loop gives
`quorumAnswer`. -/
theorem isNodeInQuorumLoop_eq {mNodeID : N} {fuel k : ℕ} {b v : List N} {res : TriBool}
    (hinv : Worklist.Inv (quorumNodes qfun (List.lookup · map)) mNodeID b v) (hb : b.Nodup)
    (hnode : node ∉ v)
    (hres : res = if v.any (missingInfo qfun (List.lookup · map)) then .tbMaybe else .tbFalse)
    (hfuel : (knownNodes mNodeID qfun map).countP (fun x => decide (x ∉ v)) < fuel) :
    isNodeInQuorumLoop node qfun map order fuel k b v res =
      quorumAnswer mNodeID node qfun (List.lookup · map) := by
  induction fuel generalizing k b v res with
  | zero => omega
  | succ fuel ih =>
    cases hpick : Worklist.pick order k b with
    | none =>
      -- the backlog is empty: the visited nodes are the reachable ones
      have hnil : b = [] := Worklist.pick_eq_none_iff.mp hpick
      subst hnil
      have hnr : ¬ Worklist.Reach (quorumNodes qfun (List.lookup · map)) mNodeID node :=
        fun h => hnode (hinv.mem_visited_iff.mpr h)
      simp only [isNodeInQuorumLoop, hpick, quorumAnswer, if_neg hnr, hres, List.any_eq_true]
      congr 1
      exact propext ⟨fun ⟨x, hx, hm⟩ => ⟨x, hinv.mem_visited_iff.mp hx, hm⟩,
        fun ⟨x, hx, hm⟩ => ⟨x, hinv.mem_visited_iff.mpr hx, hm⟩⟩
    | some c =>
      have hcb : c ∈ b := Worklist.mem_of_pick_eq_some hpick
      by_cases hc : c = node
      · subst hc
        simp only [isNodeInQuorumLoop, hpick, if_true, quorumAnswer,
          if_pos (hinv.reach c (Or.inl hcb))]
      · rw [isNodeInQuorumLoop_succ hpick hc]
        have hvisit : Worklist.Visit (quorumNodes qfun (List.lookup · map)) c b v _ _ :=
          Worklist.visit_foldl_insertNew hb hcb
        have hcU : c ∈ knownNodes mNodeID qfun map :=
          hinv.mem_of_closed List.mem_cons_self
            (fun _ _ _ hy => mem_knownNodes_of_mem_quorumNodes hy) (Or.inl hcb)
        have hlt := hvisit.countP_lt (hinv.not_mem_visited hvisit) hcU
        refine ih (hinv.visit hvisit) (Worklist.nodup_foldl_insertNew _ (hb.erase c)) ?_ ?_ (by omega)
        · simpa [Worklist.mem_setInsert, hnode] using Ne.symm hc
        · rw [Worklist.any_setInsert, hres]
          cases missingInfo qfun (List.lookup · map) c <;>
            cases v.any (missingInfo qfun (List.lookup · map)) <;> rfl

/-- `LocalNode::isNodeInQuorum` answers `quorumAnswer`, whatever order the backlog hands out
its nodes in: `TB_TRUE` when the node is reachable from the local node through the quorum sets
of the known statements, otherwise `TB_MAYBE` exactly when information on a reachable node is
missing, and `TB_FALSE` else. The fuel given is enough. -/
theorem isNodeInQuorum_eq_quorumAnswer (mNodeID node : N) (qfun : S → Option (SCPQuorumSet N))
    (map : List (N × List S)) (order : ℕ → ℕ) :
    isNodeInQuorum mNodeID node qfun map order =
      quorumAnswer mNodeID node qfun (List.lookup · map) := by
  refine isNodeInQuorumLoop_eq (Worklist.inv_init _ _) (List.nodup_singleton _)
    List.not_mem_nil (by simp) ?_
  have := List.countP_le_length (p := fun x => decide (x ∉ ([] : List N)))
    (l := knownNodes mNodeID qfun map)
  omega

end LocalNode

namespace Slot

open SCPQuorumSet

variable {N S : Type*} [DecidableEq N]

/-- `m[n].emplace_back(st)` on a list model of the `std::map`: `st` joins the statements of
`n`, and `m[n]` creates them empty first where `n` has none. -/
def emplaceBack (n : N) (st : S) : List (N × List S) → List (N × List S)
  | [] => [(n, [st])]
  | (k, sts) :: m => if k = n then (k, sts ++ [st]) :: m else (k, sts) :: emplaceBack n st m

/-- The map `Slot::isNodeInQuorum` builds from the history, one `emplace_back` per
statement. -/
def statementsMap (nodeID : S → N) (mStatementsHistory : List S) : List (N × List S) :=
  mStatementsHistory.foldl (fun m st => emplaceBack (nodeID st) st m) []

/-- `Slot::isNodeInQuorum`: the search of the local node over the statements of the slot's
history. `qfun` stands for the companion quorum set of a statement that the driver finds. -/
def isNodeInQuorum (mNodeID node : N) (nodeID : S → N) (qfun : S → Option (SCPQuorumSet N))
    (mStatementsHistory : List S) (order : ℕ → ℕ) : TriBool :=
  LocalNode.isNodeInQuorum mNodeID node qfun (statementsMap nodeID mStatementsHistory) order

/-- The statements of the history that `c` sent, in order, and `none` if it sent none. -/
def statementsOf (nodeID : S → N) (history : List S) (c : N) : Option (List S) :=
  if history.any (fun st => nodeID st = c) then some (history.filter fun st => nodeID st = c)
  else none

theorem lookup_cons_pair (c k : N) (b : List S) (m : List (N × List S)) :
    List.lookup c ((k, b) :: m) = if c = k then some b else List.lookup c m := by
  by_cases h : c = k
  · simp [List.lookup, h]
  · simp [List.lookup, beq_false_of_ne h, h]

theorem lookup_emplaceBack (n c : N) (st : S) (m : List (N × List S)) :
    List.lookup c (emplaceBack n st m) =
      if n = c then some ((List.lookup c m).getD [] ++ [st]) else List.lookup c m := by
  induction m with
  | nil => by_cases h : n = c <;> simp [emplaceBack, lookup_cons_pair, h, eq_comm]
  | cons e m ih =>
    obtain ⟨k, sts⟩ := e
    by_cases hk : k = n
    · subst hk
      by_cases h : k = c
      · simp [emplaceBack, h]
      · simp [emplaceBack, lookup_cons_pair, h, Ne.symm h]
    · by_cases h : c = k
      · subst h
        simp [emplaceBack, hk, Ne.symm hk]
      · simp [emplaceBack, lookup_cons_pair, hk, h, ih]

/-- The map built answers each `find` with the statements that node sent. -/
theorem lookup_statementsMap (nodeID : S → N) (history : List S) (c : N) :
    List.lookup c (statementsMap nodeID history) = statementsOf nodeID history c := by
  induction history using List.reverseRecOn with
  | nil => simp [statementsMap, statementsOf]
  | append_singleton h st ih =>
    rw [statementsMap, List.foldl_append, ← statementsMap, List.foldl_cons, List.foldl_nil,
      lookup_emplaceBack, ih]
    by_cases hst : nodeID st = c
    · by_cases hh : h.any (fun st => nodeID st = c)
      · simp [statementsOf, hst, hh]
      · have hnone : ∀ a ∈ h, ¬nodeID a = c := by simpa using hh
        simpa [statementsOf, hst, hh] using hnone
    · simp [statementsOf, hst]

/-- `Slot::isNodeInQuorum` answers `quorumAnswer` over the statements of the history. -/
theorem isNodeInQuorum_eq (mNodeID node : N) (nodeID : S → N)
    (qfun : S → Option (SCPQuorumSet N)) (mStatementsHistory : List S) (order : ℕ → ℕ) :
    isNodeInQuorum mNodeID node nodeID qfun mStatementsHistory order =
      LocalNode.quorumAnswer mNodeID node qfun (statementsOf nodeID mStatementsHistory) := by
  rw [isNodeInQuorum, LocalNode.isNodeInQuorum_eq_quorumAnswer]
  congr 1
  funext c
  exact lookup_statementsMap nodeID mStatementsHistory c

end Slot

namespace SCP

variable {N S σ : Type*} [DecidableEq N]

/-- The loop of `SCP::isNodeInQuorum` over the slots, the most recent first: it stops at the
first slot that answers `TB_TRUE` or `TB_FALSE`. -/
def isNodeInQuorumLoop (slotAnswer : σ → TriBool) : List σ → TriBool → TriBool
  | [], res => res
  | slot :: slots, _ =>
    let res := slotAnswer slot
    if res = .tbTrue ∨ res = .tbFalse then res else isNodeInQuorumLoop slotAnswer slots res

/-- `SCP::isNodeInQuorum`, over the histories of `mKnownSlots` in increasing slot index. -/
def isNodeInQuorum (mNodeID node : N) (nodeID : S → N) (qfun : S → Option (SCPQuorumSet N))
    (mKnownSlots : List (List S)) (order : ℕ → ℕ) : TriBool :=
  isNodeInQuorumLoop (fun h => Slot.isNodeInQuorum mNodeID node nodeID qfun h order)
    mKnownSlots.reverse .tbMaybe

/-- The loop answers as the first slot with a definite answer, and `TB_MAYBE` without one. -/
theorem isNodeInQuorumLoop_maybe (slotAnswer : σ → TriBool) (slots : List σ) :
    isNodeInQuorumLoop slotAnswer slots .tbMaybe =
      ((slots.map slotAnswer).find? (· ≠ .tbMaybe)).getD .tbMaybe := by
  induction slots with
  | nil => rfl
  | cons slot slots ih =>
    simp only [isNodeInQuorumLoop, List.map_cons, List.find?_cons]
    cases h : slotAnswer slot
    · rfl
    · rfl
    · simpa using ih

/-- `SCP::isNodeInQuorum` answers as the most recent slot whose statements decide whether the
node is in the transitive quorum of the local node, and `TB_MAYBE` when none does; the order
in which each slot's search takes its nodes does not matter. -/
theorem isNodeInQuorum_eq_latest (mNodeID node : N) (nodeID : S → N)
    (qfun : S → Option (SCPQuorumSet N)) (mKnownSlots : List (List S)) (order : ℕ → ℕ) :
    isNodeInQuorum mNodeID node nodeID qfun mKnownSlots order =
      ((mKnownSlots.reverse.map fun h =>
          LocalNode.quorumAnswer mNodeID node qfun (Slot.statementsOf nodeID h)).find?
        (· ≠ .tbMaybe)).getD .tbMaybe := by
  rw [isNodeInQuorum, isNodeInQuorumLoop_maybe]
  simp only [Slot.isNodeInQuorum_eq]

end SCP

end Dexfin.Stellar
