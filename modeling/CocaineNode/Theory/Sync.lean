import CocaineNode.Core.Sync
import CocaineNode.Theory.IncomingBlocks

/-!
# The Loop Over Downloaded Spans

Two questions about `try_add_next_blocks`: does every preparation get its
cleanup, and does a span that was rejected leave the queue.

The first is about the order of the calls. `Phase` is the state of an observer
who sees only the events: preparing is allowed when nothing is held, cleaning
up when something is, and taking a span only in between. `Settled` says that a
turn of the loop leaves the observer where the next turn may start, together
with whatever the phases mean for the core (`CoreOps.Respects`). With the
meaning left open this is the pairing; on the core of a node it is that the
locks are back where they were.

Every way on from a preparation cleans up but one. The transactions of a block
are read between the two calls, and reading them can throw: on a commitment
that is not a point, and on a transaction of version 1 that is sent as pruned.
That way out (`Exit.addThrew`) leaves the locks held. `StrayTurn` says which
turns take it, by the next span of the queue and what the core answers.

The second question depends on how the span was rejected, and on which peers
are still connected (`Removed`). Dropping a connection by its id flushes the
spans that are not filled, which a rejected span never is. Only the rejections
that happen while blocks are being added remove the span by hand, and these not
when the cleanup fails.

## Theorems

* `addNextSpan_turned`: What a turn can do.
* `incomingBlocks_contract_iff`: When the calls match.
* `rejected_span_removed_iff`: The fate of a rejected span over a call.
-/

namespace CocaineNode

/-! ## Matching calls -/

/-- Where the calls stand: nothing is held, a preparation has returned true, one has thrown, or a
    call came where it must not. -/
inductive Phase where
  | idle
  | holding
  | escaped
  | broken
  deriving DecidableEq, Repr

/-- How an event moves the phase. -/
def Phase.next : Phase → Event → Phase
  | .idle, .tookSpan => .idle
  | .idle, .prepared (.returns true) => .holding
  | .idle, .prepared (.returns false) => .idle
  | .idle, .prepared .throws => .escaped
  | .holding, .cleanedUp => .idle
  | _, _ => .broken

/-- The phase after some events. -/
def phaseAfter (events : List Event) : Phase :=
  events.foldl Phase.next .idle

/-- Every preparation that returned true is followed by exactly one cleanup before the next span is
    taken and before the end. -/
def Paired (events : List Event) : Prop :=
  phaseAfter events = .idle ∨ phaseAfter events = .escaped

theorem phaseAfter_concat (events : List Event) (e : Event) :
    phaseAfter (events ++ [e]) = (phaseAfter events).next e := by
  rw [phaseAfter, List.foldl_append]
  rfl

/-- The phase each way out of the loop leaves: two exceptions come while something is held or about
    to be. -/
def Exit.phase : Exit → Phase
  | .prepareThrew => .escaped
  | .addThrew _ => .holding
  | _ => .idle

/-- A property of the core for each phase that the calls carry along. -/
structure CoreOps.Respects {σ : Type} (core : CoreOps σ) (Inv : Phase → σ → Prop) : Prop where
  prepare : ∀ c entries, Inv .idle c →
    Inv (Phase.idle.next (.prepared (core.prepareHandleIncomingBlocks c entries).1))
      (core.prepareHandleIncomingBlocks c entries).2.2
  handle : ∀ c blob b ps, Inv .holding c → Inv .holding (core.handleIncomingBlock c blob b ps).2
  cleanup : ∀ c, Inv .holding c → Inv .idle (core.cleanupHandleIncomingBlocks c).2

namespace SyncState

variable {σ : Type}

/-! ## Frames -/

/-- A change of the queue alone. -/
structure QueueOnly (s t : SyncState σ) : Prop where
  core : t.core = s.core
  events : t.events = s.events
  connections : t.connections = s.connections

variable {s t : SyncState σ}

theorem QueueOnly.trans {u : SyncState σ} (h : s.QueueOnly t) (h' : t.QueueOnly u) :
    s.QueueOnly u :=
  ⟨h'.core.trans h.core, h'.events.trans h.events, h'.connections.trans h.connections⟩

section

variable (s : SyncState σ) (id : ConnectionId)

theorem queueOnly_forConnectionDrop (all : Bool) : s.QueueOnly (s.forConnectionDrop id all) := by
  unfold forConnectionDrop
  split <;> exact ⟨rfl, rfl, rfl⟩

theorem queueOnly_dropConnections (address : NetworkAddress) :
    s.QueueOnly (s.dropConnections address) := by
  refine List.foldlRecOn (motive := s.QueueOnly) _ dropOne ⟨rfl, rfl, rfl⟩ ?_
  intro t ht id _
  have hflush : t.QueueOnly (t.withQueue (t.queue.flushSpans id true)) := ⟨rfl, rfl, rfl⟩
  exact ht.trans (hflush.trans (queueOnly_forConnectionDrop _ id false))

/-- One dropped connection takes all its spans along. -/
theorem mem_dropOne (span : Span) : span ∈ (s.dropOne id).queue.blocks ↔
      span ∈ s.queue.blocks ∧ span.connectionId ≠ id := by
  unfold dropOne forConnectionDrop
  by_cases hid : span.connectionId = id
  · split <;> simp [withQueue, dropConnectionWithScore, hid]
  · split <;> simp [withQueue, dropConnectionWithScore, hid]

/-- `drop_connections` takes the spans of every live connection to the host. -/
theorem mem_dropConnections (address : NetworkAddress) (span : Span) :
    span ∈ (s.dropConnections address).queue.blocks ↔ span ∈ s.queue.blocks ∧
        ¬ ∃ c ∈ s.connections, c.connectionId = span.connectionId ∧
          address.isSameHost c.remoteAddress = true := by
  have hfold : ∀ (ids : List ConnectionId) (t : SyncState σ),
      span ∈ (ids.foldl dropOne t).queue.blocks ↔
        span ∈ t.queue.blocks ∧ span.connectionId ∉ ids := by
    intro ids
    induction ids with
    | nil => simp
    | cons id ids ih =>
      intro t
      rw [List.foldl_cons, ih, mem_dropOne, List.mem_cons, not_or, and_assoc]
  have hids := hfold ((s.connections.filter fun c => address.isSameHost c.remoteAddress).map
    Connection.connectionId) s
  refine hids.trans (and_congr_right fun _ => not_congr ?_)
  simp only [List.mem_map, List.mem_filter]
  constructor
  · rintro ⟨c, ⟨hc, hhost⟩, hid⟩
    exact ⟨c, hc, hid, hhost⟩
  · rintro ⟨c, hc, hid, hhost⟩
    exact ⟨c, ⟨hc, hhost⟩, hid⟩

/-- `for_connection` takes the spans of a connection that is live, all of them or those that are
    not filled. -/
theorem mem_forConnectionDrop (all : Bool) (span : Span) (hfilled : span.blocks ≠ []) :
    span ∈ (s.forConnectionDrop id all).queue.blocks ↔ span ∈ s.queue.blocks ∧
        ¬ (all = true ∧ span.connectionId = id ∧ ∃ c ∈ s.connections, c.connectionId = id) := by
  unfold forConnectionDrop
  by_cases hlive : (s.connections.any fun c => c.connectionId = id) = true
  · have hex : ∃ c ∈ s.connections, c.connectionId = id := by simpa using hlive
    cases all <;> simp [dropConnectionWithScore, withQueue, hfilled, hex]
  · have hex : ¬ ∃ c ∈ s.connections, c.connectionId = id := by simpa using hlive
    simp [hex]

end

/-! ## One turn -/

section Turn

variable {E : Externals} {core : CoreOps σ} {peer : PeerOps σ} {s t : SyncState σ}

/-- When a span that was rejected is removed, given the live connections: never for a wrong parent
    height, with the connection that sent it when the preparation failed, and otherwise also by
    hand after a cleanup that succeeded. -/
def Removed (connections : List Connection) (span : Span) : Rejection → Prop
  | .parentHeight => False
  | .preparation => ∃ c ∈ connections, c.connectionId = span.connectionId ∧
      span.origin.isSameHost c.remoteAddress = true
  | .content _ cleaned => cleaned = true ∨ ∃ c ∈ connections, c.connectionId = span.connectionId

/-- The blocks of some entries are added one after the other: the handler is not stopping, the
    transactions are read, and the core neither refuses the block nor finds it an orphan. -/
inductive Added (E : Externals) (core : CoreOps σ) : List BlockCompleteEntry → List Block →
    σ → σ → Prop
  | nil (pblocks : List Block) (c : σ) : Added E core [] pblocks c c
  | cons {e : BlockCompleteEntry} {rest : List BlockCompleteEntry} {pblocks : List Block} {c c' : σ}
      {txs : PoolSupplement} : core.stopping c = false →
      makeFullPoolSupplementFromBlockEntry E e = .made txs →
      (core.handleIncomingBlock c e.block pblocks.head? txs).1.verifivationFailed = false →
      (core.handleIncomingBlock c e.block pblocks.head? txs).1.markedAsOrphaned = false →
      Added E core rest pblocks.tail (core.handleIncomingBlock c e.block pblocks.head? txs).2 c' →
      Added E core (e :: rest) pblocks c c'

/-- Reading the transactions of an entry throws, and all entries before it are added. -/
def StrayEntry (E : Externals) (core : CoreOps σ) (entries : List BlockCompleteEntry)
    (pblocks : List Block) (c : σ) : Prop :=
  ∃ pre e post c', entries = pre ++ e :: post ∧ Added E core pre pblocks c c' ∧
    core.stopping c' = false ∧ makeFullPoolSupplementFromBlockEntry E e = .threw

theorem addEntries_threw_iff (entries : List BlockCompleteEntry) (pblocks : List Block) (c : σ) :
    (∃ e, (addEntries E core entries pblocks c).1 = .threw e) ↔
      StrayEntry E core entries pblocks c := by
  induction entries generalizing pblocks c with
  | nil =>
    refine iff_of_false (by simp [addEntries]) ?_
    rintro ⟨pre, e, post, c', h, -⟩
    cases pre <;> cases h
  | cons d rest ih =>
    have hcons : StrayEntry E core (d :: rest) pblocks c ↔ core.stopping c = false ∧
        (makeFullPoolSupplementFromBlockEntry E d = .threw ∨
        ∃ txs, makeFullPoolSupplementFromBlockEntry E d = .made txs ∧
          (core.handleIncomingBlock c d.block pblocks.head? txs).1.verifivationFailed = false ∧
          (core.handleIncomingBlock c d.block pblocks.head? txs).1.markedAsOrphaned = false ∧
          StrayEntry E core rest pblocks.tail
            (core.handleIncomingBlock c d.block pblocks.head? txs).2) := by
      constructor
      · rintro ⟨pre, e, post, c', h, hadded, hgo, hthrew⟩
        cases hadded with
        | nil =>
          cases h
          exact ⟨hgo, .inl hthrew⟩
        | cons hgo' hmade hok hknown hadded =>
          cases h
          exact ⟨hgo', .inr ⟨_, hmade, hok, hknown, _, e, post, c', rfl, hadded, hgo, hthrew⟩⟩
      · rintro ⟨hgo, hthrew | ⟨txs, hmade, hok, hknown, pre, e, post, c', rfl, hadded, hrest⟩⟩
        · exact ⟨[], d, rest, c, rfl, .nil _ c, hgo, hthrew⟩
        · exact ⟨d :: pre, e, post, c', rfl, .cons hgo hmade hok hknown hadded, hrest⟩
    rw [hcons, addEntries]
    cases hstop : core.stopping c with
    | true => simp
    | false =>
      cases hmake : makeFullPoolSupplementFromBlockEntry E d with
      | threw => simp
      | refused => simp
      | made txs =>
        cases hok : (core.handleIncomingBlock c d.block pblocks.head? txs).1.verifivationFailed <;>
          cases hknown :
            (core.handleIncomingBlock c d.block pblocks.head? txs).1.markedAsOrphaned <;>
          simp [hok, hknown, ih]

/-- A turn that leaves between a preparation and its cleanup. The last block of the next span is
    read and new, and the parent of the first is known. The preparation returns true, with all the
    blocks or none, and the transactions of some entry throw. -/
def StrayTurn (E : Externals) (core : CoreOps σ) (s : SyncState σ) : Prop :=
  ∃ span last first pblocks c, s.queue.getNextSpan = some span ∧
    (span.blocks.getLast?.bind fun e => E.parseBlock e.block) = some last ∧
    last.hashThrows = false ∧ core.haveBlock s.core (E.blockHash last) = false ∧
    (span.blocks.head?.bind fun e => E.parseBlock e.block) = some first ∧
    core.haveBlock s.core first.prevId = true ∧
    core.prepareHandleIncomingBlocks s.core span.blocks = (.returns true, pblocks, c) ∧
    (pblocks = [] ∨ pblocks.length = span.blocks.length) ∧
    StrayEntry E core span.blocks pblocks c

theorem screen_process_iff (E : Externals) (core : CoreOps σ) (s : SyncState σ) (span : Span) :
    s.screen E core span = .process ↔ ∃ last first,
      (span.blocks.getLast?.bind fun e => E.parseBlock e.block) = some last ∧
      last.hashThrows = false ∧ core.haveBlock s.core (E.blockHash last) = false ∧
      (span.blocks.head?.bind fun e => E.parseBlock e.block) = some first ∧
      core.haveBlock s.core first.prevId = true := by
  unfold screen
  cases span.blocks.getLast?.bind fun e => E.parseBlock e.block with
  | none => simp
  | some last =>
    cases hthrows : last.hashThrows <;> cases hnew : core.haveBlock s.core (E.blockHash last) <;>
      simp [hthrows, hnew]
    cases span.blocks.head?.bind fun e => E.parseBlock e.block with
    | none => simp
    | some first =>
      cases hparent : core.haveBlock s.core first.prevId with
      | true => simp [hparent]
      | false =>
        simp only [hparent, Bool.false_eq_true, if_false]
        split_ifs <;> simp [hparent]

theorem addPrepared_addThrew_iff (E : Externals) (core : CoreOps σ) (s : SyncState σ) (span : Span)
    (pblocks : List Block) :
    (∃ e t, s.addPrepared E core span pblocks = .leave (.addThrew e) t) ↔
      (pblocks = [] ∨ pblocks.length = span.blocks.length) ∧
        StrayEntry E core span.blocks pblocks s.core := by
  unfold addPrepared
  by_cases hsizes : pblocks ≠ [] ∧ pblocks.length ≠ span.blocks.length
  · rw [if_pos hsizes]
    refine iff_of_false (by simp) fun h => ?_
    exact h.1.elim hsizes.1 hsizes.2
  · rw [if_neg hsizes, ← addEntries_threw_iff]
    have hsame : pblocks = [] ∨ pblocks.length = span.blocks.length := by
      by_contra hnot
      exact hsizes (not_or.mp hnot)
    simp only [hsame, true_and]
    cases (addEntries E core span.blocks pblocks s.core).1 with
    | stopping => simp
    | threw e => simp
    | fault fault =>
      simp only [rejectContent]
      split <;> simp
    | through =>
      dsimp only
      split <;> simp

theorem addNextSpan_addThrew_iff (E : Externals) (core : CoreOps σ) (peer : PeerOps σ)
    (s : SyncState σ) :
    (∃ e t, s.addNextSpan E core peer = .leave (.addThrew e) t) ↔ StrayTurn E core s := by
  unfold addNextSpan
  cases hnext : s.queue.getNextSpan with
  | none => simp [StrayTurn, hnext]
  | some span =>
    have hscreen := screen_process_iff E core (s.record .tookSpan) span
    -- Past the checks the turn depends on the preparation and the entries alone.
    have hstray : StrayTurn E core s ↔ (s.record .tookSpan).screen E core span = .process ∧
        ∃ pblocks c, core.prepareHandleIncomingBlocks s.core span.blocks =
          (.returns true, pblocks, c) ∧ (pblocks = [] ∨ pblocks.length = span.blocks.length) ∧
          StrayEntry E core span.blocks pblocks c := by
      rw [hscreen, StrayTurn]
      constructor
      · rintro ⟨span', last, first, pblocks, c, hspan, hlast, hid, hnew, hfirst, hparent, hrest⟩
        cases hnext.symm.trans hspan
        exact ⟨⟨last, first, hlast, hid, hnew, hfirst, hparent⟩, pblocks, c, hrest⟩
      · rintro ⟨⟨last, first, hlast, hid, hnew, hfirst, hparent⟩, pblocks, c, hrest⟩
        exact ⟨span, last, first, pblocks, c, hnext, hlast, hid, hnew, hfirst, hparent, hrest⟩
    rw [hstray]
    cases hscreened : (s.record .tookSpan).screen E core span with
    | process =>
      have hcore : (s.record .tookSpan).core = s.core := rfl
      simp only [hscreened, processSpan, hcore, true_and]
      rcases core.prepareHandleIncomingBlocks s.core span.blocks with ⟨⟨_ | _⟩ | _, pblocks, c⟩
      · simp
      · dsimp only
        rw [addPrepared_addThrew_iff]
        simp only [Prod.mk.injEq, true_and]
        exact ⟨fun h => ⟨pblocks, c, ⟨rfl, rfl⟩, h⟩, fun ⟨_, _, ⟨rfl, rfl⟩, h⟩ => h⟩
      · simp
    | parentLater =>
      simp only [hscreened]
      split <;> simp
    | _ => simp [hscreened]

/-- What a turn can do: go round without a span it took, or reject one, whose fate is then that of
    `Removed`. -/
def Turned (s : SyncState σ) : Loop.Turn (SyncState σ) Exit → Prop
  | .again t => ∃ span ∈ s.queue.blocks,
      t.queue = s.queue.removeSpans span.connectionId span.startBlockHeight ∧
        t.connections = s.connections
  | .leave (.rejected why span) t => span ∉ t.queue.blocks ↔ Removed s.connections span why
  | .leave _ _ => True

section Span

variable {span : Span} (hfilled : span.blocks ≠ []) (hmem : span ∈ s.queue.blocks)
include hfilled hmem

theorem rejectContent_turned (fault : ContentFault) :
    Turned s (s.rejectContent core span fault) := by
  have hdrop := queueOnly_dropConnections s span.origin
  -- Whether or not the host is the same, a live connection takes the span along here.
  have hmem' : span ∈
      ((s.dropConnections span.origin).forConnectionDrop span.connectionId true).queue.blocks ↔
      ¬ ∃ c ∈ s.connections, c.connectionId = span.connectionId := by
    rw [mem_forConnectionDrop _ _ _ _ hfilled, mem_dropConnections, hdrop.connections]
    simp only [hmem, true_and]
    constructor
    · exact fun hout => hout.2
    · intro hgone
      exact ⟨fun ⟨c, hc, hid, _⟩ => hgone ⟨c, hc, hid⟩, hgone⟩
  unfold rejectContent
  simp only
  split
  · refine iff_of_true ?_ (.inl rfl)
    simp [removeSpan, withQueue]
  · -- The cleanup does not touch the queue.
    refine (not_congr hmem').trans ?_
    simp [Removed]

theorem addPrepared_turned (pblocks : List Block) :
    Turned s (s.addPrepared E core span pblocks) := by
  unfold addPrepared
  split
  · trivial
  · simp only
    split
    · trivial
    · trivial
    · exact rejectContent_turned (s := s.withCore (addEntries E core span.blocks pblocks s.core).2)
        hfilled hmem _
    · split
      · exact ⟨span, hmem, rfl, rfl⟩
      · trivial

end Span

theorem addNextSpan_turned (E : Externals) (core : CoreOps σ) (peer : PeerOps σ)
    (s : SyncState σ) : Turned s (s.addNextSpan E core peer) := by
  unfold addNextSpan
  cases hnext : s.queue.getNextSpan with
  | none => trivial
  | some span =>
    have hmem := List.mem_of_find?_eq_some hnext
    have hfilled : span.blocks ≠ [] := by simpa using List.find?_some hnext
    simp only
    split
    · exact ⟨span, hmem, rfl, rfl⟩
    · trivial
    · -- A wrong parent height: the span is filled, so dropping the connection keeps it.
      refine iff_of_false (not_not.mpr ?_) id
      rw [dropConnection, mem_forConnectionDrop _ _ _ _ hfilled]
      exact ⟨hmem, by simp⟩
    · trivial
    · split <;> trivial
    · trivial
    · unfold processSpan
      simp only
      split
      · trivial
      · -- The preparation failed: only live connections to the host lose their spans.
        rw [Turned, mem_dropConnections, not_and_not_right]
        exact ⟨fun hout => hout hmem, fun hlive _ => hlive⟩
      · exact addPrepared_turned (s := ((s.record _).withCore _).record _) hfilled hmem _

/-- A turn that goes round removes the span it took. -/
theorem addNextSpan_again (h : s.addNextSpan E core peer = .again t) : ∃ span ∈ s.queue.blocks,
      t.queue = s.queue.removeSpans span.connectionId span.startBlockHeight ∧
        t.connections = s.connections := by
  have hturned := addNextSpan_turned E core peer s
  rwa [h] at hturned

/-- The function leaves by a turn from a state that satisfies whatever the turns before it keep. -/
theorem tryAddNextBlocks_turned {I : SyncState σ → Prop} {exit : Exit}
    (hI : ∀ r r', I r → r.addNextSpan E core peer = .again r' → I r') (hs : I s)
    (h : s.tryAddNextBlocks E core peer = some (exit, t)) :
    ∃ r, I r ∧ Turned r (.leave exit t) := by
  unfold tryAddNextBlocks at h
  split at h
  · cases h
    exact ⟨s, hs, trivial⟩
  · rw [Option.map_eq_some_iff] at h
    rcases h with ⟨⟨last, u⟩, hloop, hend⟩
    rcases Loop.run_last _ _ hI _ s u last hs hloop with ⟨r, hr, hturn⟩
    have hturned := addNextSpan_turned E core peer r
    rw [hturn] at hturned
    refine ⟨r, hr, ?_⟩
    cases last <;> cases hend <;> exact hturned

/-- The queue gets shorter with every turn, so the loop ends within its turns. -/
theorem tryAddNextBlocks_isSome (E : Externals) (core : CoreOps σ) (peer : PeerOps σ)
    (s : SyncState σ) : (s.tryAddNextBlocks E core peer).isSome := by
  unfold tryAddNextBlocks
  split
  · rfl
  · rw [Option.isSome_map]
    refine Loop.run_isSome _ (fun t => t.queue.blocks.length) ?_ _ s (Nat.lt_succ_self _)
    intro t u hturn
    rcases addNextSpan_again hturn with ⟨span, hspan, hqueue, -⟩
    rw [hqueue]
    exact List.length_filter_lt_length_iff_exists.mpr ⟨span, hspan, by simp⟩

/-! ## Pairing -/

/-- The observer's phase since some events, and what it means for the core. -/
structure At (Inv : Phase → σ → Prop) (base : List Event) (p : Phase) (s : SyncState σ) : Prop where
  events : ∃ new, s.events = base ++ new ∧ phaseAfter new = p
  core : Inv p s.core

/-- A turn that leaves the observer where the next turn may start, or where its exit says. -/
def Settled (Inv : Phase → σ → Prop) (base : List Event) : Loop.Turn (SyncState σ) Exit → Prop
  | .again t => t.At Inv base .idle
  | .leave exit t => t.At Inv base exit.phase

variable {Inv : Phase → σ → Prop} {base : List Event} {p : Phase}

theorem At.start (h : Inv .idle s.core) : s.At Inv s.events .idle :=
  ⟨⟨[], (List.append_nil _).symm, rfl⟩, h⟩

theorem At.congr (h : s.At Inv base p) (hcore : t.core = s.core) (hevents : t.events = s.events) :
    t.At Inv base p :=
  ⟨hevents ▸ h.events, hcore ▸ h.core⟩

theorem At.queueOnly (h : s.At Inv base p) (ht : s.QueueOnly t) : t.At Inv base p :=
  h.congr ht.core ht.events

/-- An event after which the core is as the new phase says. -/
theorem At.record (h : s.At Inv base p) (e : Event) (c : σ) (hc : Inv (p.next e) c) :
    ((s.withCore c).record e).At Inv base (p.next e) := by
  rcases h.events with ⟨new, hnew, hphase⟩
  refine ⟨⟨new ++ [e], ?_, ?_⟩, hc⟩
  · rw [← List.append_assoc, ← hnew]
    rfl
  · rw [phaseAfter_concat, hphase]

section

variable (hcore : core.Respects Inv)
include hcore

theorem At.cleanUp (h : s.At Inv base .holding) : (s.cleanUp core).2.At Inv base .idle :=
  h.record .cleanedUp _ (hcore.cleanup s.core h.core)

/-- The loop over the blocks only makes calls that keep the phase. -/
theorem addEntries_holding (entries : List BlockCompleteEntry)
    (pblocks : List Block) (c : σ) (hc : Inv .holding c) :
    Inv .holding (addEntries E core entries pblocks c).2 := by
  induction entries generalizing pblocks c with
  | nil => exact hc
  | cons e rest ih =>
    rw [addEntries]
    split
    · exact hc
    · split
      · exact hc
      · exact hc
      · simp only
        split
        · exact hcore.handle c e.block pblocks.head? _ hc
        · split
          · exact hcore.handle c e.block pblocks.head? _ hc
          · exact ih pblocks.tail _ (hcore.handle c e.block pblocks.head? _ hc)

theorem rejectContent_settled (h : s.At Inv base .holding) (span : Span) (fault : ContentFault) :
    Settled Inv base (s.rejectContent core span fault) := by
  have hdropped := (h.queueOnly (queueOnly_dropConnections s span.origin)).queueOnly
    (queueOnly_forConnectionDrop _ span.connectionId true)
  have hclean := hdropped.cleanUp hcore
  unfold rejectContent
  simp only
  split
  · exact hclean.congr rfl rfl
  · exact hclean

/-- Each way on from a preparation that returned true has one cleanup, the exception apart. -/
theorem addPrepared_settled (h : s.At Inv base .holding) (span : Span) (pblocks : List Block) :
    Settled Inv base (s.addPrepared E core span pblocks) := by
  unfold addPrepared
  split
  · exact h.cleanUp hcore
  · have hadded : (s.withCore (addEntries E core span.blocks pblocks s.core).2).At Inv base
        .holding := ⟨h.events, addEntries_holding hcore span.blocks pblocks s.core h.core⟩
    simp only
    split
    · exact hadded.cleanUp hcore
    · exact hadded
    · exact rejectContent_settled hcore hadded span _
    · split
      · exact (hadded.cleanUp hcore).congr rfl rfl
      · exact hadded.cleanUp hcore

theorem processSpan_settled (h : s.At Inv base .idle) (span : Span) :
    Settled Inv base (s.processSpan E core span) := by
  have hprepared := h.record (.prepared _) _ (hcore.prepare s.core span.blocks h.core)
  unfold processSpan
  cases hr : (core.prepareHandleIncomingBlocks s.core span.blocks).1 with
  | throws =>
    simp only [hr] at hprepared ⊢
    exact hprepared
  | returns value =>
    cases value with
    | false =>
      simp only [hr] at hprepared ⊢
      exact hprepared.queueOnly (queueOnly_dropConnections _ span.origin)
    | true =>
      simp only [hr] at hprepared ⊢
      exact addPrepared_settled hcore hprepared span _

end

/-- A turn that starts with nothing held ends so, exceptions apart. -/
theorem addNextSpan_settled (E : Externals) (peer : PeerOps σ) (hcore : core.Respects Inv)
    (h : s.At Inv base .idle) : Settled Inv base (s.addNextSpan E core peer) := by
  unfold addNextSpan
  split
  · exact h
  · next span _ =>
      have htook : (s.record .tookSpan).At Inv base .idle := h.record .tookSpan s.core h.core
      simp only
      split
      · exact htook.congr rfl rfl
      · exact htook
      · exact htook.queueOnly (queueOnly_forConnectionDrop _ span.connectionId false)
      · exact htook
      · split
        · exact htook.congr rfl rfl
        · exact htook
      · exact htook.congr rfl rfl
      · exact processSpan_settled hcore htook span

theorem At.skip (h : s.At Inv base p) (peer : PeerOps σ) (force : Bool) :
    (s.skip peer force).At Inv base p := by
  unfold SyncState.skip
  simp only
  split <;> exact h.congr rfl rfl

theorem At.stopAdding (h : s.At Inv base p) (peer : PeerOps σ) :
    (s.stopAdding peer).At Inv base p := by
  unfold SyncState.stopAdding
  split
  · exact h.skip peer true
  · split
    · split
      · exact h
      · exact h.congr rfl rfl
    · exact h.skip peer false

/-- What every way out leaves. -/
theorem tryAddNextBlocks_at (hcore : core.Respects Inv) {exit : Exit} (h : s.At Inv base .idle)
    (hrun : s.tryAddNextBlocks E core peer = some (exit, t)) : t.At Inv base exit.phase := by
  unfold tryAddNextBlocks at hrun
  split at hrun
  · cases hrun
    exact h.skip peer false
  · rw [Option.map_eq_some_iff] at hrun
    rcases hrun with ⟨⟨last, u⟩, hloop, hend⟩
    -- The last turn starts with nothing held, because every turn before it ended so.
    have hkeep : ∀ r r' : SyncState σ, r.At Inv base .idle → r.addNextSpan E core peer = .again r' →
        r'.At Inv base .idle := by
      intro r r' hr hturn
      have hsettled := addNextSpan_settled E peer hcore hr
      rwa [hturn] at hsettled
    rcases Loop.run_last _ _ hkeep _ s u last h hloop with ⟨r, hr, hturn⟩
    have hu := addNextSpan_settled E peer hcore hr
    rw [hturn] at hu
    cases last <;> simp only [Prod.mk.injEq] at hend <;> rcases hend with ⟨rfl, rfl⟩
    case noSpan => exact At.stopAdding hu peer
    case parentRequested => exact At.stopAdding hu peer
    case parentLater => exact At.skip hu peer false
    case parentUnknown => exact At.skip hu peer false
    all_goals exact hu

end Turn

/-- The loop leaves between a preparation and its cleanup exactly when one of its turns does. -/
theorem tryAddNextBlocks_addThrew_iff {E : Externals} {core : CoreOps σ} {peer : PeerOps σ}
    {exit : Exit} (h : s.tryAddNextBlocks E core peer = some (exit, t)) :
    (∃ e, exit = .addThrew e) ↔ s.syncLocked = false ∧
      ∃ r, Loop.Starts (addNextSpan E core peer) s r ∧ StrayTurn E core r := by
  unfold tryAddNextBlocks at h
  cases hlocked : s.syncLocked with
  | true =>
    rw [hlocked, if_pos rfl] at h
    cases h
    simp
  | false =>
    rw [hlocked, if_neg (by simp), Option.map_eq_some_iff] at h
    rcases h with ⟨⟨last, u⟩, hloop, hend⟩
    have hexit : (∃ e, exit = .addThrew e) ↔ ∃ e, last = .addThrew e := by
      cases last <;> cases hend <;> rfl
    have hlast : ∀ e v, Loop.run (addNextSpan E core peer) (s.queue.blocks.length + 1) s =
        some (e, v) ↔ _ := fun e v => Loop.run_eq_some_iff _ _ s v e (by rw [hloop]; rfl)
    simp only [hexit, true_and, ← addNextSpan_addThrew_iff E core peer]
    constructor
    · rintro ⟨e, rfl⟩
      rcases (hlast _ _).mp hloop with ⟨r, hr, hleave⟩
      exact ⟨r, hr, e, u, hleave⟩
    · rintro ⟨r, hr, e, v, hleave⟩
      rw [(hlast _ _).mpr ⟨r, hr, hleave⟩, Option.some.injEq, Prod.mk.injEq] at hloop
      exact ⟨e, hloop.1.symm⟩

/-- The preparation keeps its contract and the loop its pairing exactly when neither throws: the
    preparation at a block or a transaction of its entries, and the loop, which always ends, at an
    entry whose transactions throw when they are read between the two calls. -/
theorem incomingBlocks_contract_iff (E : Externals) (env : PrepareEnv) (n : Node)
    (entries : List BlockCompleteEntry) (core : CoreOps σ) (peer : PeerOps σ) (s : SyncState σ) :
    ∃ exit t new, s.tryAddNextBlocks E core peer = some (exit, t) ∧ t.events = s.events ++ new ∧
      ((n.Contract (n.prepareHandleIncomingBlocks E env entries) ∧ Paired new) ↔
        ¬ PrepareThrows E env (env.chainFound n.chain) entries ∧
          (s.syncLocked = false →
            ∀ r, Loop.Starts (addNextSpan E core peer) s r → ¬ StrayTurn E core r)) := by
  rcases Option.isSome_iff_exists.mp (tryAddNextBlocks_isSome E core peer s) with ⟨⟨exit, t⟩, hrun⟩
  have hcore : core.Respects fun _ _ => True :=
    ⟨fun _ _ _ => trivial, fun _ _ _ _ _ => trivial, fun _ _ => trivial⟩
  rcases (tryAddNextBlocks_at hcore (.start trivial) hrun).events with ⟨new, hnew, hphase⟩
  refine ⟨exit, t, new, hrun, hnew, ?_⟩
  have hpaired : Paired new ↔ ¬ ∃ e, exit = .addThrew e := by
    rw [Paired, hphase]
    cases exit <;> simp [Exit.phase]
  rw [hpaired, tryAddNextBlocks_addThrew_iff hrun, Node.prepare_contract_iff, ne_eq,
    Node.prepare_throws_iff, not_and, not_exists]
  simp only [not_and]

/-- A node with a genesis block, of which the calling thread holds nothing. -/
def freshNode : Node where
  chain := .start (BlockchainDB.empty.append
    { block := Block.null, hash := 1, minerTxHash := 0, txs := [], weight := 0, longTermWeight := 0
      cumulativeDifficulty := 1, coins := 0 } (by decide) (by decide)) .mainnet
  locks := {}
  batch := none
  scanTable := ∅

/-- A handler that goes on asking for blocks. -/
def patientPeer : PeerOps (Node × Nat) where
  shouldDropConnection _ := false
  shouldDownloadNextSpan _ := false
  requestMissingObjects s _ := (true, s.queue, s.context)

/-- A node with one span in its queue, and some peers. -/
def oneSpan (span : Span) (haveBlocks : AList fun _ : Hash => UInt64)
    (connections : List Connection) : SyncState (Node × Nat) where
  core := (freshNode, 0)
  queue := ⟨[span], ∅, haveBlocks, List.pairwise_singleton _ _⟩
  connections := connections
  context := ⟨9, false, [], 0⟩
  syncLocked := false
  events := []

/-- The sample interpretation with two blobs of its own: one is read as a miner transaction, the
    other as a transaction of version 1. The block that names it has nonce 3. -/
def oldTxExternals : Externals :=
  { Externals.sample with
    parseBlock := fun blob =>
      some (if blob = [1, 3] then { sampleBlock blob with txHashes := [1] } else sampleBlock blob)
    parseTxBase := fun blob =>
      some (if blob = [0] then { vin := [.gen 1] }
        else if blob = [8] then { vin := [.toKey 0 [1] 8] } else sampleTx blob) }

/-- A new block with a transaction of version 1 that is sent as pruned. -/
def prunedSpan : Span :=
  ⟨1, [], [{ pruned := true, block := [1, 3], txs := [{ blob := [8], prunableHash := 1 }] }], 7,
    ⟨[10], 80⟩⟩

/-- A new block on the genesis block that comes with a miner transaction makes the preparation throw
    with both locks held and the batch open. With a pruned transaction of version 1 it gets through,
    and the loop leaves without a cleanup. -/
theorem incomingBlocks_contract_fails :
    (let r := freshNode.prepareHandleIncomingBlocks oldTxExternals oneThread
      [{ block := [1, 1], txs := [{ blob := [0] }] }]
    r.1 = .throws ∧ r.2.2.locks = { incomingTx := 1, txPool := 1 } ∧ r.2.2.batch.isSome ∧
      ¬ freshNode.Contract r) ∧
    ((oneSpan prunedSpan ∅ []).tryAddNextBlocks oldTxExternals
        (nodeCore oldTxExternals ⟨2000, 0, fun _ => oneThread, fun _ => false⟩) patientPeer).map
        (fun r => (r.2.events, r.2.core.1.locks)) =
      some ([.tookSpan, .prepared (.returns true)], { incomingTx := 1, txPool := 1 }) ∧
    ¬ Paired [.tookSpan, .prepared (.returns true)] := by
  refine ⟨?_, by decide +kernel, by simp [Paired, phaseAfter, Phase.next]⟩
  intro r
  have hthrows : r.1 = .throws := by decide +kernel
  refine ⟨hthrows, by decide +kernel, by decide +kernel, ?_⟩
  simp [Node.Contract, hthrows]

/-! ## Rejected spans -/

section Rejected

variable {E : Externals} {core : CoreOps σ} {peer : PeerOps σ}

/-- Whatever the queue, the peers and the core: a span that `try_add_next_blocks` rejects is gone
    when it returns exactly when `Removed` says so. -/
theorem rejected_span_removed_iff (E : Externals) (core : CoreOps σ) (peer : PeerOps σ)
    (s t : SyncState σ) (span : Span) (why : Rejection)
    (h : s.tryAddNextBlocks E core peer = some (.rejected why span, t)) :
    span ∉ t.queue.blocks ↔ Removed s.connections span why := by
  -- No turn changes the list of connections.
  have hkeep : ∀ r r' : SyncState σ, r.connections = s.connections →
      r.addNextSpan E core peer = .again r' → r'.connections = s.connections := by
    intro r r' hr hturn
    rcases addNextSpan_again hturn with ⟨-, -, -, hconnections⟩
    exact hconnections.trans hr
  rcases tryAddNextBlocks_turned hkeep rfl h with ⟨r, hr, hiff⟩
  rw [← hr]
  exact hiff

end Rejected

/-- The function on a node of the sample. -/
def tryAdd (s : SyncState (Node × Nat)) : Option (Exit × SyncState (Node × Nat)) :=
  s.tryAddNextBlocks .sample (nodeCore .sample ⟨2000, 0, fun _ => oneThread, fun _ => false⟩)
    patientPeer

/-- The peer that sent the spans below. -/
def sender : Connection := ⟨7, ⟨[10], 80⟩⟩

/-- A block on the genesis block with one transaction sent twice, which fails the preparation. -/
def repeatedSpan : Span :=
  ⟨1, [], [{ block := [1, 1], txs := [{ blob := [5] }, { blob := [5] }] }], 7, ⟨[10], 80⟩⟩

/-- A block whose parent was received for another height. -/
def misplacedSpan : Span :=
  ⟨5, [], [{ block := [9, 1] }], 7, ⟨[10], 80⟩⟩

/-- With the sender connected, the span that fails the preparation is removed. -/
theorem repeatedSpan_removed :
    ∃ t, tryAdd (oneSpan repeatedSpan ∅ [sender]) = some (.rejected .preparation repeatedSpan, t) ∧
      repeatedSpan ∉ t.queue.blocks := by
  have hexit : (tryAdd (oneSpan repeatedSpan ∅ [sender])).map Prod.fst =
      some (.rejected .preparation repeatedSpan) := by decide +kernel
  rcases Option.map_eq_some_iff.mp hexit with ⟨⟨exit, t⟩, hrun, rfl⟩
  refine ⟨t, hrun, ?_⟩
  exact (rejected_span_removed_iff _ _ _ _ t _ _ hrun).mpr ⟨sender, by decide, by decide, by decide⟩

/-- The span stays, and the next call rejects it again: with the sender gone when the preparation
    fails; and when the height of the parent is wrong, for which the sender is dropped, even after
    its connection has closed. -/
theorem rejected_spans_stay :
    ((tryAdd (oneSpan repeatedSpan ∅ [])).bind fun r => (tryAdd r.2).map fun r' =>
        [(r.1, r.2.queue.blocks), (r'.1, r'.2.queue.blocks)]) =
      some [(.rejected .preparation repeatedSpan, [repeatedSpan]),
        (.rejected .preparation repeatedSpan, [repeatedSpan])] ∧
    ((tryAdd (oneSpan misplacedSpan ((∅ : AList fun _ : Hash => UInt64).insert 9 7) [sender])).bind
        fun r => (tryAdd (r.2.onConnectionClose sender.connectionId)).map fun r' =>
          [(r.1, r.2.queue.blocks), (r'.1, r'.2.queue.blocks)]) =
      some [(.rejected .parentHeight misplacedSpan, [misplacedSpan]),
        (.rejected .parentHeight misplacedSpan, [misplacedSpan])] := by
  decide +kernel

end SyncState

end CocaineNode
