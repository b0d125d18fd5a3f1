import Mathlib.Algebra.BigOperators.Group.Multiset.Basic
import Mathlib.Data.Finset.Insert
import NakamotoNode.Foundations.Flooding
import NakamotoNode.Network.Message

/-! # Broadcasting

The threads that `P2PNetwork::create` of `lib_network/src/p2pnetwork.rs` starts at the nodes of a
network. A connection is read by one thread, which drops what is in the node's ack set, and otherwise
passes it on inside the node and writes it to every neighbor. What the node itself sends goes through a
thread that spawns one writer for every neighbor. Between any two locks or writes the other threads
move. The network floods: it refines `Flood` (`Step.simulates`). -/

namespace NakamotoNode.Network
open Foundations Chain
set_option autoImplicit false

/-- What the threads of one node share. -/
structure P2PNetwork (ν : Type) where
  ack : Finset String
  /-- the neighbors that are connected -/
  channels : List ν

/-- A thread of a node that is at work, and what it has left to do. -/
inductive Thread (ν : Type) where
  | connecting (u w : ν)
  /-- a reader, the message in the ack set -/
  | accepted (v : ν) (m : NetMessage)
  /-- a reader, the message in the local channel -/
  | passed (v : ν) (m : NetMessage)
  /-- a reader that holds the lock of the channels -/
  | relaying (v : ν) (m : NetMessage) (rest : List ν)
  /-- a broadcasting thread, the message in the ack set -/
  | originated (u : ν) (m : NetMessage)
  /-- a broadcasting thread that holds the lock of the channels -/
  | spawning (u : ν) (m : NetMessage) (rest : List ν)
  /-- a writer that a broadcasting thread has spawned -/
  | writing (u w : ν) (m : NetMessage)
  deriving DecidableEq

inductive Move (ν : Type) where
  | connect (u w : ν)
  /-- of a broadcasting thread and its writers -/
  | originate (u : ν) (m : NetMessage)
  | broadcast (u : ν) (m : NetMessage)
  | spawn (u w : ν) (m : NetMessage)
  | write (u w : ν) (m : NetMessage)
  /-- of a reader -/
  | drop (v : ν) (m : NetMessage)
  | accept (v : ν) (m : NetMessage)
  | pass (v : ν) (m : NetMessage)
  | relay (v : ν) (m : NetMessage)
  | relayTo (v w : ν) (m : NetMessage)
  | finish (v : ν) (m : NetMessage)
  deriving DecidableEq

/-- The nodes of a network, the threads at work, and the messages written to a node that it has not
read. -/
structure Gossip (ν : Type) where
  nodes : ν → P2PNetwork ν
  threads : Multiset (Thread ν)
  inFlight : Multiset (ν × NetMessage)

/-- The reader's `match`: an unknown message goes nowhere. -/
def NetMessage.relayed : NetMessage → Bool
  | unknown _ => false
  | _ => true

/-- A reader that has accepted a message. -/
def reader {ν : Type} (v : ν) (m : NetMessage) : Multiset (Thread ν) :=
  if m.relayed then {.accepted v m} else 0

namespace Gossip
variable {ν : Type} [DecidableEq ν]

/-- `ack.insert(message_str)` at a node. -/
def acknowledge (printable : Char → Bool) (s : Gossip ν) (v : ν) (m : NetMessage) :
    ν → P2PNetwork ν :=
  Function.update s.nodes v
    { s.nodes v with ack := insert (m.debug printable) (s.nodes v).ack }

/-- `channels.push(net_channel)` at a node. -/
def connect (s : Gossip ν) (u w : ν) : ν → P2PNetwork ν :=
  Function.update s.nodes u { s.nodes u with channels := (s.nodes u).channels ++ [w] }

inductive Step (printable : Char → Bool) : Gossip ν → Move ν → Gossip ν → Prop
  | connect {s : Gossip ν} {u w : ν} {rest : Multiset (Thread ν)}
      (h : s.threads = .connecting u w ::ₘ rest) :
      Step printable s (.connect u w) { s with nodes := s.connect u w, threads := rest }
  | originate {s : Gossip ν} {u : ν} {m : NetMessage} (hm : m.relayed = true)
      (hjoin : ∀ w, .connecting u w ∉ s.threads) :
      Step printable s (.originate u m)
        { s with nodes := s.acknowledge printable u m, threads := .originated u m ::ₘ s.threads }
  | broadcast {s : Gossip ν} {u : ν} {m : NetMessage} {rest : Multiset (Thread ν)}
      (h : s.threads = .originated u m ::ₘ rest) :
      Step printable s (.broadcast u m)
        { s with threads := .spawning u m (s.nodes u).channels ::ₘ rest }
  | spawn {s : Gossip ν} {u w : ν} {m : NetMessage} {ws : List ν} {rest : Multiset (Thread ν)}
      (h : s.threads = .spawning u m (w :: ws) ::ₘ rest) :
      Step printable s (.spawn u w m)
        { s with threads := .spawning u m ws ::ₘ .writing u w m ::ₘ rest }
  | spawned {s : Gossip ν} {u : ν} {m : NetMessage} {rest : Multiset (Thread ν)}
      (h : s.threads = .spawning u m [] ::ₘ rest) :
      Step printable s (.finish u m) { s with threads := rest }
  | write {s : Gossip ν} {u w : ν} {m : NetMessage} {rest : Multiset (Thread ν)}
      (h : s.threads = .writing u w m ::ₘ rest) :
      Step printable s (.write u w m)
        { s with threads := rest, inFlight := (w, m) ::ₘ s.inFlight }
  | drop {s : Gossip ν} {v : ν} {m : NetMessage} {rest : Multiset (ν × NetMessage)}
      (h : s.inFlight = (v, m) ::ₘ rest) (hack : m.debug printable ∈ (s.nodes v).ack) :
      Step printable s (.drop v m) { s with inFlight := rest }
  | accept {s : Gossip ν} {v : ν} {m : NetMessage} {rest : Multiset (ν × NetMessage)}
      (h : s.inFlight = (v, m) ::ₘ rest) (hack : m.debug printable ∉ (s.nodes v).ack) :
      Step printable s (.accept v m)
        { nodes := s.acknowledge printable v m
          threads := reader v m + s.threads
          inFlight := rest }
  | pass {s : Gossip ν} {v : ν} {m : NetMessage} {rest : Multiset (Thread ν)}
      (h : s.threads = .accepted v m ::ₘ rest) :
      Step printable s (.pass v m) { s with threads := .passed v m ::ₘ rest }
  | relay {s : Gossip ν} {v : ν} {m : NetMessage} {rest : Multiset (Thread ν)}
      (h : s.threads = .passed v m ::ₘ rest) :
      Step printable s (.relay v m)
        { s with threads := .relaying v m (s.nodes v).channels ::ₘ rest }
  | relayTo {s : Gossip ν} {v w : ν} {m : NetMessage} {ws : List ν} {rest : Multiset (Thread ν)}
      (h : s.threads = .relaying v m (w :: ws) ::ₘ rest) :
      Step printable s (.relayTo v w m)
        { s with threads := .relaying v m ws ::ₘ rest, inFlight := (w, m) ::ₘ s.inFlight }
  | relayed {s : Gossip ν} {v : ν} {m : NetMessage} {rest : Multiset (Thread ν)}
      (h : s.threads = .relaying v m [] ::ₘ rest) :
      Step printable s (.finish v m) { s with threads := rest }

/-- No message yet, and every node connected to its neighbors, in any order. -/
structure Established (neighbors : ν → List ν) (s : Gossip ν) : Prop where
  ack : ∀ u, (s.nodes u).ack = ∅
  channels : ∀ u, (s.nodes u).channels.Perm (neighbors u)
  threads : s.threads = 0
  inFlight : s.inFlight = 0

/-- No message is on a connection or in the hands of a thread. -/
def Quiet (s : Gossip ν) : Prop := s.threads = 0 ∧ s.inFlight = 0

variable {printable : Char → Bool} {neighbors : ν → List ν} {s t : Gossip ν} {a : Move ν}
  {u v : ν} {m m' : NetMessage}

theorem ack_acknowledge :
    m'.debug printable ∈ (s.acknowledge printable v m u).ack ↔
      (u = v ∧ m' = m) ∨ m'.debug printable ∈ (s.nodes u).ack := by
  by_cases h : u = v
  · subst h
    simp [acknowledge, (NetMessage.debug_injective printable).eq_iff]
  · simp [acknowledge, h]

theorem channels_acknowledge :
    (s.acknowledge printable v m u).channels = (s.nodes u).channels := by
  by_cases h : u = v
  · subst h
    simp [acknowledge]
  · simp [acknowledge, h]

/-! ## The network floods -/

/-- The nodes that a node sends a message to. -/
def route (neighbors : ν → List ν) (u : ν) (m : NetMessage) : List ν :=
  if m.relayed then neighbors u else []

/-- The copies that a thread has still to write. -/
def owes (neighbors : ν → List ν) : Thread ν → Multiset (ν × NetMessage)
  | .connecting _ _ => 0
  | .accepted v m => Flood.copies (neighbors v) m
  | .passed v m => Flood.copies (neighbors v) m
  | .relaying _ m rest => Flood.copies rest m
  | .originated u m => Flood.copies (neighbors u) m
  | .spawning _ m rest => Flood.copies rest m
  | .writing _ w m => {(w, m)}

/-- The copies that the threads have still to write. -/
def debts (neighbors : ν → List ν) (threads : Multiset (Thread ν)) : Multiset (ν × NetMessage) :=
  (threads.map (owes neighbors)).sum

/-- The moves that change what is seen or how many copies there are. -/
def flooding : Move ν → Option (Flood.Move ν NetMessage)
  | .originate u m => some (.originate u m)
  | .accept v m => some (.accept v m)
  | .drop v m => some (.drop v m)
  | _ => none

/-- The ack sets are what is seen, and a copy is pending on a connection or in a thread. -/
structure Simulates (printable : Char → Bool) (neighbors : ν → List ν) (s : Gossip ν)
    (F : Flood ν NetMessage) : Prop where
  seen : ∀ v m, m ∈ F.seen v ↔ m.debug printable ∈ (s.nodes v).ack
  pending : F.pending = s.inFlight + debts neighbors s.threads
  channels : ∀ u, (s.nodes u).channels.Perm (neighbors u)
  joined : ∀ u w, .connecting u w ∉ s.threads

omit [DecidableEq ν] in
theorem debts_cons (T : Thread ν) (rest : Multiset (Thread ν)) :
    debts neighbors (T ::ₘ rest) = owes neighbors T + debts neighbors rest := by
  simp [debts]

omit [DecidableEq ν] in
theorem debts_reader_add (v : ν) (m : NetMessage) (rest : Multiset (Thread ν)) :
    debts neighbors (reader v m + rest) =
      Flood.copies (route neighbors v m) m + debts neighbors rest := by
  by_cases hm : m.relayed = true <;> simp [debts, reader, route, hm, owes, Flood.copies_nil]

omit [DecidableEq ν] in
/-- Threads that go on, what they still owe and what they have written being the same copies. -/
theorem Simulates.silent {F : Flood ν NetMessage} (h : Simulates printable neighbors s F)
    {threads : Multiset (Thread ν)} {inFlight : Multiset (ν × NetMessage)}
    (hjoined : ∀ u w, .connecting u w ∉ threads)
    (howes : s.inFlight + debts neighbors s.threads =
      inFlight + debts neighbors threads) :
    Simulates printable neighbors { s with threads := threads, inFlight := inFlight } F :=
  ⟨h.seen, h.pending.trans howes, h.channels, hjoined⟩

theorem Step.simulates (hstep : Step printable s a t) {F : Flood ν NetMessage}
    (h : Simulates printable neighbors s F) :
    ∃ F', Run (Flood.Step (route neighbors)) F (flooding a).toList F' ∧
      Simulates printable neighbors t F' := by
  have hjoined := h.joined
  have hcopies := fun u (m : NetMessage) => Flood.copies_perm (h.channels u) m
  cases hstep with
  | connect ht => exact absurd (ht ▸ Multiset.mem_cons_self _ _) (hjoined _ _)
  | originate hm =>
    refine ⟨_, Run.single .originate, fun v m => ?_, ?_, fun u => ?_, fun u w => ?_⟩
    · rw [Flood.mem_see, ack_acknowledge, h.seen]
    · simp only [h.pending, debts_cons, owes, route, hm, if_true]
      ac_rfl
    · rw [channels_acknowledge]
      exact h.channels u
    · simp [hjoined]
  | broadcast ht | relay ht =>
    simp only [ht, Multiset.mem_cons, not_or] at hjoined
    refine ⟨F, .nil F, h.silent (fun u w => ?_) ?_⟩
    · simp [hjoined]
    · simp only [ht, debts_cons, owes, hcopies]
  | spawn ht | relayTo ht =>
    simp only [ht, Multiset.mem_cons, not_or] at hjoined
    refine ⟨F, .nil F, h.silent (fun u w => ?_) ?_⟩
    · simp [hjoined]
    · simp only [ht, debts_cons, owes, Flood.copies_cons]
      simp only [← Multiset.singleton_add]
      ac_rfl
  | spawned ht | relayed ht =>
    simp only [ht, Multiset.mem_cons, not_or] at hjoined
    refine ⟨F, .nil F, h.silent (fun u w => (hjoined u w).2) ?_⟩
    simp only [ht, debts_cons, owes, Flood.copies_nil, zero_add]
  | write ht =>
    simp only [ht, Multiset.mem_cons, not_or] at hjoined
    refine ⟨F, .nil F, h.silent (fun u w => (hjoined u w).2) ?_⟩
    simp only [ht, debts_cons, owes]
    simp only [← Multiset.singleton_add]
    ac_rfl
  | @drop v m rest hf hack =>
    have hpending : F.pending = (v, m) ::ₘ (rest + debts neighbors s.threads) := by
      rw [h.pending, hf, Multiset.cons_add]
    exact ⟨_, Run.single (.drop hpending ((h.seen v m).mpr hack)), h.seen, rfl, h.channels, hjoined⟩
  | @accept v m rest hf hack =>
    have hpending : F.pending = (v, m) ::ₘ (rest + debts neighbors s.threads) := by
      rw [h.pending, hf, Multiset.cons_add]
    refine ⟨_, Run.single (.accept hpending fun hseen => hack ((h.seen v m).mp hseen)),
      fun u m' => ?_, ?_, fun u => ?_, fun u w => ?_⟩
    · rw [Flood.mem_see, ack_acknowledge, h.seen]
    · rw [debts_reader_add]
      ac_rfl
    · rw [channels_acknowledge]
      exact h.channels u
    · by_cases hm : m.relayed = true <;> simp [reader, hm, hjoined]
  | pass ht =>
    simp only [ht, Multiset.mem_cons, not_or] at hjoined
    refine ⟨F, .nil F, h.silent (fun u w => ?_) ?_⟩
    · simp [hjoined]
    · simp only [ht, debts_cons, owes]

omit [DecidableEq ν] in
theorem Established.simulates (h : Established neighbors s) :
    Simulates printable neighbors s (Flood.empty ν NetMessage) := by
  refine ⟨fun v m => ?_, ?_, h.channels, fun u w => ?_⟩
  · simp [Flood.empty, h.ack]
  · simp [Flood.empty, debts, h.threads, h.inFlight]
  · simp [h.threads]

/-! ## What the readers have to do -/

/-- A message written to the neighbors `ws`. -/
def relays (v : ν) (m : NetMessage) (ws : List ν) : Multiset (Move ν) :=
  ws.map fun w => Move.relayTo v w m

/-- The moves that are left to a reader. -/
def due (neighbors : ν → List ν) : Thread ν → Multiset (Move ν)
  | .accepted v m => .pass v m ::ₘ .relay v m ::ₘ relays v m (neighbors v)
  | .passed v m => .relay v m ::ₘ relays v m (neighbors v)
  | .relaying v m rest => relays v m rest
  | _ => 0

def dues (neighbors : ν → List ν) (threads : Multiset (Thread ν)) : Multiset (Move ν) :=
  (threads.map (due neighbors)).sum

/-- The message that a reader's move is about. -/
def about : Move ν → Option (ν × NetMessage)
  | .pass v m => some (v, m)
  | .relay v m => some (v, m)
  | .relayTo v _ m => some (v, m)
  | _ => none

/-- A move that readers are bound to make. -/
def made (a : Move ν) : Multiset (Move ν) := if (about a).isSome then {a} else 0

/-- The moves that an accepted message binds its reader to. -/
def promised (neighbors : ν → List ν) : Move ν → Multiset (Move ν)
  | .accept v m => dues neighbors (reader v m)
  | _ => 0

section Dues
omit [DecidableEq ν]

theorem dues_cons (T : Thread ν) (rest : Multiset (Thread ν)) :
    dues neighbors (T ::ₘ rest) = due neighbors T + dues neighbors rest := by
  simp [dues]

theorem dues_add (threads threads' : Multiset (Thread ν)) :
    dues neighbors (threads + threads') = dues neighbors threads + dues neighbors threads' := by
  simp [dues]

theorem relays_cons (v w : ν) (m : NetMessage) (ws : List ν) :
    relays v m (w :: ws) = {.relayTo v w m} + relays v m ws := rfl

theorem relays_nil (v : ν) (m : NetMessage) : relays v m [] = 0 := rfl

theorem relays_perm {ws ws' : List ν} (h : ws.Perm ws') (v : ν) (m : NetMessage) :
    relays v m ws = relays v m ws' :=
  Multiset.coe_eq_coe.mpr (h.map _)

end Dues

theorem Step.dues_eq (hstep : Step printable s a t)
    (hchannels : ∀ u, (s.nodes u).channels.Perm (neighbors u)) :
    made a + dues neighbors t.threads = promised neighbors a + dues neighbors s.threads := by
  cases hstep with
  | connect ht => simp [made, about, promised, ht, dues_cons, due]
  | originate => simp [made, about, promised, dues_cons, due]
  | broadcast ht => simp [made, about, promised, ht, dues_cons, due]
  | spawn ht => simp [made, about, promised, ht, dues_cons, due]
  | spawned ht => simp [made, about, promised, ht, dues_cons, due]
  | write ht => simp [made, about, promised, ht, dues_cons, due]
  | drop => simp [made, about, promised]
  | accept => simp [made, about, promised, dues_add]
  | pass ht => simp [made, about, promised, ht, dues_cons, due, Multiset.cons_swap]
  | relay ht => simp [made, about, promised, ht, dues_cons, due, relays_perm (hchannels _)]
  | relayTo ht => simp [made, about, promised, ht, dues_cons, due, relays_cons]
  | relayed ht => simp [made, about, promised, ht, dues_cons, due, relays_nil]

omit [DecidableEq ν] in
theorem mem_promised {b : Move ν} (h : b ∈ promised neighbors a) :
    ∃ v m, a = .accept v m ∧ about b = some (v, m) := by
  cases a with
  | accept v m =>
    refine ⟨v, m, rfl, ?_⟩
    by_cases hm : m.relayed = true
    · simp only [promised, reader, hm, if_true, dues, Multiset.map_singleton,
        Multiset.sum_singleton, due, Multiset.mem_cons, relays, Multiset.mem_coe, List.mem_map] at h
      rcases h with rfl | rfl | ⟨w, -, rfl⟩ <;> rfl
    · simp [promised, reader, hm, dues] at h
  | _ => exact absurd h (Multiset.notMem_zero b)

section Counts
variable {moves : List (Move ν)} {b : Move ν}

theorem count_made (hb : (about b).isSome) : (moves.map made).sum.count b = moves.count b := by
  induction moves with
  | nil => rfl
  | cons a moves ih =>
    rw [List.map_cons, List.sum_cons, Multiset.count_add, ih, List.count_cons, Nat.add_comm]
    congr 1
    by_cases hab : a = b
    · simp [made, hab, hb]
    · by_cases ha : (about a).isSome <;> simp [made, ha, hab, Ne.symm hab]

theorem count_promised (hb : about b = some (v, m)) :
    (moves.map (promised neighbors)).sum.count b =
      moves.count (.accept v m) * (promised neighbors (.accept v m)).count b := by
  induction moves with
  | nil => simp
  | cons a moves ih =>
    rw [List.map_cons, List.sum_cons, Multiset.count_add, ih, List.count_cons, Nat.add_mul,
      Nat.add_comm]
    congr 1
    by_cases ha : a = .accept v m
    · simp [ha]
    · have hnot : b ∉ promised neighbors a := by
        intro hmem
        obtain ⟨v', m', rfl, hb'⟩ := mem_promised hmem
        rw [hb] at hb'
        obtain ⟨rfl, rfl⟩ := Prod.mk.inj (Option.some.inj hb')
        exact ha rfl
      simp [ha, Multiset.count_eq_zero_of_notMem hnot]

end Counts

/-! ## Runs -/

section Runs
variable {s₀ : Gossip ν} {moves : List (Move ν)}

theorem floods_of_run (h₀ : Established neighbors s₀) (hrun : Run (Step printable) s₀ moves s) :
    ∃ F, Run (Flood.Step (route neighbors)) (Flood.empty ν NetMessage) (moves.filterMap flooding) F ∧
      Simulates printable neighbors s F :=
  hrun.simulate flooding (fun _ _ _ _ h hstep => hstep.simulates h) h₀.simulates

theorem dues_of_run (h₀ : Established neighbors s₀) (hrun : Run (Step printable) s₀ moves s) :
    (moves.map made).sum + dues neighbors s.threads = (moves.map (promised neighbors)).sum := by
  refine (hrun.invariant_labels (I := fun moves s => (∃ F, Simulates printable neighbors s F) ∧
    (moves.map made).sum + dues neighbors s.threads = (moves.map (promised neighbors)).sum)
    (fun moves s a t hI hstep => ?_) ⟨⟨_, h₀.simulates⟩, ?_⟩).2
  · obtain ⟨⟨F, hF⟩, hdues⟩ := hI
    obtain ⟨F', -, hF'⟩ := hstep.simulates hF
    refine ⟨⟨F', hF'⟩, ?_⟩
    have hstep := hstep.dues_eq hF.channels
    rw [List.map_append, List.sum_append, List.map_append, List.sum_append, ← hdues,
      List.map_singleton, List.sum_singleton, List.map_singleton, List.sum_singleton, add_assoc,
      hstep]
    ac_rfl
  · simp [dues, h₀.threads]

theorem count_flooding (v : ν) (m : NetMessage) :
    (moves.filterMap flooding).count (.accept v m) = moves.count (.accept v m) := by
  rw [List.count_filterMap, List.count]
  congr 1
  funext a
  cases a <;> simp [flooding]

/-- A reader's move is made at most as often as accepting its message once asks for. -/
theorem count_le (h₀ : Established neighbors s₀) (hrun : Run (Step printable) s₀ moves s)
    {b : Move ν} (hb : about b = some (v, m)) :
    moves.count b ≤ (due neighbors (.accepted v m)).count b := by
  obtain ⟨F, hF, -⟩ := floods_of_run h₀ hrun
  have haccept : moves.count (.accept v m) ≤ 1 := by
    rw [← count_flooding]
    exact Flood.accept_count_le hF
  have hcount := congrArg (Multiset.count b) (dues_of_run h₀ hrun)
  rw [Multiset.count_add, count_made (by rw [hb]; rfl), count_promised hb] at hcount
  have hplan : (promised neighbors (.accept v m)).count b ≤
      (due neighbors (.accepted v m)).count b := by
    by_cases hm : m.relayed = true <;> simp [promised, reader, hm, dues]
  calc moves.count b ≤ moves.count (.accept v m) * (promised neighbors (.accept v m)).count b := by
        omega
    _ ≤ 1 * (promised neighbors (.accept v m)).count b := Nat.mul_le_mul_right _ haccept
    _ ≤ (due neighbors (.accepted v m)).count b := by rwa [Nat.one_mul]

theorem accept_of_mem (h₀ : Established neighbors s₀) (hrun : Run (Step printable) s₀ moves s)
    {b : Move ν} (hb : about b = some (v, m)) (hmem : b ∈ moves) : .accept v m ∈ moves := by
  have hcount := congrArg (Multiset.count b) (dues_of_run h₀ hrun)
  rw [Multiset.count_add, count_made (by rw [hb]; rfl), count_promised hb] at hcount
  have hpos := List.count_pos_iff.mpr hmem
  by_contra hnot
  rw [List.count_eq_zero_of_not_mem hnot, Nat.zero_mul] at hcount
  omega

/-- At rest, what is seen of a message that is passed on has been originated or passed on. -/
theorem passed_of_quiet (h₀ : Established neighbors s₀) (hrun : Run (Step printable) s₀ moves s)
    (hquiet : s.Quiet) (hm : m.relayed = true) (haccept : .accept v m ∈ moves) :
    .pass v m ∈ moves := by
  have hcount := congrArg (Multiset.count (.pass v m)) (dues_of_run h₀ hrun)
  rw [Multiset.count_add, count_made rfl, count_promised rfl, hquiet.1] at hcount
  have hpos := List.count_pos_iff.mpr haccept
  apply List.count_pos_iff.mp
  simp only [dues, Multiset.map_zero, Multiset.sum_zero, Multiset.count_zero, add_zero, promised,
    reader, hm, if_true, Multiset.map_singleton, Multiset.sum_singleton, due,
    Multiset.count_cons_self] at hcount
  rw [hcount]
  exact Nat.mul_pos hpos (Nat.succ_pos _)

theorem seen_iff {F : Flood ν NetMessage}
    (hF : Run (Flood.Step (route neighbors)) (Flood.empty ν NetMessage)
      (moves.filterMap flooding) F) :
    m ∈ F.seen v ↔ .originate v m ∈ moves ∨ .accept v m ∈ moves := by
  rw [Flood.mem_seen_iff hF, List.mem_filterMap, List.mem_filterMap]
  refine or_congr ⟨?_, fun hmem => ⟨_, hmem, rfl⟩⟩ ⟨?_, fun hmem => ⟨_, hmem, rfl⟩⟩
  · rintro ⟨a, hmem, ha⟩
    cases a <;> simp [flooding] at ha
    obtain ⟨rfl, rfl⟩ := ha
    exact hmem
  · rintro ⟨a, hmem, ha⟩
    cases a <;> simp [flooding] at ha
    obtain ⟨rfl, rfl⟩ := ha
    exact hmem

end Runs

/-- In every run of a network whose connections are up, a node passes a message to its local channel
once at most, and its readers relay it once at most, to each neighbor once at most for each time that it
is a neighbor. When the network is quiet, what a node has originated or passed on so has every node
that is reached from it. -/
theorem gossip_exactly_once {s₀ : Gossip ν} {moves : List (Move ν)}
    (h₀ : Established neighbors s₀) (hrun : Run (Step printable) s₀ moves s) :
    (∀ v m, moves.count (.pass v m) ≤ 1 ∧ moves.count (.relay v m) ≤ 1 ∧
      ∀ w, moves.count (.relayTo v w m) ≤ (neighbors v).count w) ∧
    (s.Quiet → ∀ m, m.relayed = true → ∀ u v,
      (.originate u m ∈ moves ∨ .pass u m ∈ moves) →
      Relation.ReflTransGen (fun a b => b ∈ neighbors a) u v →
      .originate v m ∈ moves ∨ .pass v m ∈ moves) := by
  refine ⟨fun v m => ⟨?_, ?_, fun w => ?_⟩, fun hquiet m hm u v hu hreach => ?_⟩
  · refine (count_le h₀ hrun rfl).trans (le_of_eq ?_)
    simp [due, relays, List.count_eq_zero]
  · refine (count_le h₀ hrun rfl).trans (le_of_eq ?_)
    simp [due, relays, List.count_eq_zero]
  · refine (count_le h₀ hrun rfl).trans (le_of_eq ?_)
    have hinj : Function.Injective fun w => Move.relayTo v w m := fun w w' h =>
      (Move.relayTo.inj h).2.1
    simp [due, relays, List.count_map_of_injective _ _ hinj]
  · obtain ⟨F, hF, hsim⟩ := floods_of_run h₀ hrun
    have hpending : F.pending = 0 := by
      rw [hsim.pending, hquiet.1, hquiet.2]
      rfl
    have hseen : m ∈ F.seen u := (seen_iff hF).mpr (hu.imp_right (accept_of_mem h₀ hrun rfl))
    have hroute : Relation.ReflTransGen (fun a b => b ∈ route neighbors a m) u v := by
      simpa only [route, hm, if_true] using hreach
    exact ((seen_iff hF).mp (Flood.seen_of_reaches hF hpending hseen hroute)).imp_right
      (passed_of_quiet h₀ hrun hquiet hm)

/-- Two nodes, each the neighbor of the other. -/
def pair : Gossip Bool where
  nodes := fun v => { ack := ∅, channels := [!v] }
  threads := 0
  inFlight := 0

/-- What a node with one neighbor originates is written to it. -/
theorem run_broadcast {w : ν} (rest : Multiset (Thread ν))
    (ht : s.threads = .originated u m ::ₘ rest) (hc : (s.nodes u).channels = [w]) :
    Run (Step printable) s [.broadcast u m, .spawn u w m, .finish u m, .write u w m]
      { s with threads := rest, inFlight := (w, m) ::ₘ s.inFlight } := by
  have hbroadcast : Run (Step printable) s _ _ := Run.single (.broadcast ht)
  rw [hc] at hbroadcast
  exact ((hbroadcast.snoc (.spawn rfl)).snoc (.spawned rfl)).snoc (.write rfl)

theorem run_relay {w : ν} (rest : Multiset (Thread ν))
    (ht : s.threads = .passed u m ::ₘ rest) (hc : (s.nodes u).channels = [w]) :
    Run (Step printable) s [.relay u m, .relayTo u w m, .finish u m]
      { s with threads := rest, inFlight := (w, m) ::ₘ s.inFlight } := by
  have hrelay : Run (Step printable) s _ _ := Run.single (.relay ht)
  rw [hc] at hrelay
  exact (hrelay.snoc (.relayTo rfl)).snoc (.relayed rfl)

theorem run_reader {w : ν} (rest : Multiset (Thread ν))
    (ht : s.threads = .accepted u m ::ₘ rest) (hc : (s.nodes u).channels = [w]) :
    Run (Step printable) s [.pass u m, .relay u m, .relayTo u w m, .finish u m]
      { s with threads := rest, inFlight := (w, m) ::ₘ s.inFlight } := by
  have hpass : Run (Step printable) s _ _ := Run.single (.pass ht)
  exact hpass.trans (run_relay rest rfl hc)

/-- The first node originates a message; the second passes it on and sends it back. -/
theorem run_pair (printable : Char → Bool) (hm : m.relayed = true) :
    ∃ s moves, Run (Step printable) pair moves s ∧ s.Quiet ∧ .originate false m ∈ moves := by
  have horiginate : Run (Step printable) pair _ _ :=
    Run.single (.originate (u := false) (m := m) hm fun w => Multiset.notMem_zero _)
  have hwritten := horiginate.trans (run_broadcast (u := false) (w := true) 0 rfl rfl)
  have haccept := hwritten.snoc (@Step.accept _ _ printable _ true m 0 rfl (Finset.notMem_empty _))
  rw [reader, if_pos hm] at haccept
  have hback := haccept.trans (run_reader (u := true) (w := false) 0 rfl rfl)
  have hdrop := hback.snoc (@Step.drop _ _ printable _ false m 0 rfl (Finset.mem_insert_self _ _))
  exact ⟨_, _, hdrop, ⟨rfl, rfl⟩, by simp⟩

theorem gossip_exactly_once_pair : ∃ (moves : List (Move Bool)) (s : Gossip Bool),
    Run (Step fun _ => true) pair moves s ∧ s.Quiet ∧
    moves.count (.pass true (.broadcastBlock BlockNode.genesisBlock)) ≤ 1 ∧
    (.originate true (.broadcastBlock BlockNode.genesisBlock) ∈ moves ∨
      .pass true (.broadcastBlock BlockNode.genesisBlock) ∈ moves) := by
  have h₀ : Established (fun v => [!v]) pair := ⟨fun _ => rfl, fun _ => .refl _, rfl, rfl⟩
  obtain ⟨s, moves, hrun, hquiet, hmem⟩ := run_pair (fun _ => true)
    (m := .broadcastBlock BlockNode.genesisBlock) rfl
  obtain ⟨honce, heverywhere⟩ := gossip_exactly_once h₀ hrun
  exact ⟨moves, s, hrun, hquiet, (honce _ _).1, heverywhere hquiet _ rfl false true
    (.inl hmem) (.single List.mem_cons_self)⟩

end Gossip
end NakamotoNode.Network
