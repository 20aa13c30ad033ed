import CocaineNode.Core.Levin
import CocaineNode.Lib.Incremental

/-!
# Streams of Levin Packets

Bytes arrive in chunks whose cuts mean nothing, and a message may come in
fragments. Neither shows in what is delivered.

`machine` is the parser as a machine that eats a stream. It knows nothing of the
storage behind the buffer: only what has not been used matters. One turn of the
loop of `handle_recv` is one act of the machine, and an act does not depend on
bytes that have not arrived, so the machine is steady and the cuts are
irrelevant.

Two checks of a call do depend on the cuts. The sizes are compared with a limit
that is read at the start of a call, and a call after the connection was closed
is refused, while the rest of the chunk in which a handler closed it is still
delivered. Where neither of them strikes, one machine without a limit describes
every way to cut the stream.

## Theorems

* `Levin.feed_feeds`: Calls that are not refused feed the machine.
* `Levin.cuts_and_fragments`: Neither cuts nor fragments show.
-/

namespace CocaineNode

open List Nat

namespace Levin

open Codec (littleEndian ofLittleEndian)

open Incremental (Act Machine)

/-! ## The buffer -/

namespace Buffer

variable {b b' : Buffer} {data out : Blob} {sz : Nat}

/-- The bytes that have not been used. -/
def contents (b : Buffer) : Blob :=
  b.storage.drop b.offset

theorem size_eq (b : Buffer) : b.size = b.contents.length := by
  rw [size, contents, length_drop]

theorem contents_compact (b : Buffer) (capacity : Nat) :
    (b.compact capacity).contents = b.contents :=
  drop_zero

theorem contents_makeRoom (b : Buffer) (sz : Nat) : (b.makeRoom sz).contents = b.contents := by
  rw [makeRoom]
  split_ifs
  · exact contents_compact b _
  · exact contents_compact b _
  · exact contents_compact b _
  · rfl

theorem contents_insert (b : Buffer) (data : Blob) :
    (b.insert data).contents = b.contents ++ data :=
  drop_append_of_le_length b.offset_le

theorem append_contents (h : b.append data = some b') : b'.contents = b.contents ++ data := by
  rw [append] at h
  split_ifs at h
  cases h
  rw [contents_insert, contents_makeRoom]

theorem append_storage (h : b.append data = some b') :
    b'.storage.length ≤ b.storage.length + data.length := by
  rw [append] at h
  split_ifs at h
  cases h
  have hroom : (b.makeRoom data.length).storage.length ≤ b.storage.length := by
    rw [makeRoom]
    split_ifs
    · exact length_drop ▸ sub_le _ _
    · exact length_drop ▸ sub_le _ _
    · exact length_drop ▸ sub_le _ _
    · exact le_refl _
  rw [insert, length_append]
  omega

theorem erase_eq (hsz : sz ≤ b.size) :
    ∃ b', b.erase sz = some b' ∧ b'.contents = b.contents.drop sz ∧
      b'.storage.length ≤ b.storage.length := by
  have hle := offset_add_le hsz
  rw [erase, dif_pos hle]
  split_ifs with hall
  · refine ⟨_, rfl, ?_, zero_le _⟩
    rw [contents, contents, drop_drop, hall, drop_length, drop_nil]
  · refine ⟨_, rfl, ?_, le_refl _⟩
    rw [contents, contents, drop_drop]

theorem span_eq (hsz : sz ≤ b.size) : b.span sz = some (b.contents.take sz) :=
  if_pos hsz

theorem carve_eq (hsz : sz ≤ b.size) :
    ∃ b', b.carve sz = some (b.contents.take sz, b') ∧ b'.contents = b.contents.drop sz ∧
      b'.storage.length ≤ b.storage.length := by
  rw [carve, dif_pos hsz]
  refine ⟨_, rfl, ?_, le_refl _⟩
  rw [contents, contents, drop_drop]

end Buffer

/-! ## The machine -/

variable {ε : Type} {cmds : Commands ε} {max : Nat} {c c' : Connection ε} {p p' : Parser ε}
  {b b' : Blob} {f : Failure}

/-- The bytes at the front cannot start a header. -/
def BadSignature (b : Blob) : Prop :=
  8 ≤ b.length ∧ UInt64.ofNat (ofLittleEndian (b.take 8)) ≠ levinSignature

instance (b : Blob) : Decidable (BadSignature b) :=
  inferInstanceAs (Decidable (_ ∧ _))

/-- The parser as a machine that eats a stream. -/
def machine (cmds : Commands ε) (max : Nat) : Machine UInt8 (Parser ε) (Failure × Parser ε) where
  act p b :=
    match p.state with
    | .body =>
      if b.length < p.currentHead.cb.toNat then .wait
      else
        match receivePacket cmds max (b.take p.currentHead.cb.toNat) { p with state := .head } with
        | .go p' => .take p' p.currentHead.cb.toNat
        | .fail f p' => .halt (f, p')
    | .head =>
      if BadSignature b then .halt (.signature, p)
      else if b.length < headSize then .wait
      else if (Head.ofBytes b).Fits max then .take (p.setHead (Head.ofBytes b)) headSize
      else .halt (.size, p.setHead (Head.ofBytes b))

theorem act_body (hp : p.state = .body) : (machine cmds max).act p b =
      if b.length < p.currentHead.cb.toNat then .wait
      else
        match receivePacket cmds max (b.take p.currentHead.cb.toNat) { p with state := .head } with
        | .go p' => .take p' p.currentHead.cb.toNat
        | .fail f p' => .halt (f, p') := by
  simp only [machine, hp]

theorem act_head (hp : p.state = .head) : (machine cmds max).act p b =
      if BadSignature b then .halt (.signature, p)
      else if b.length < headSize then .wait
      else if (Head.ofBytes b).Fits max then .take (p.setHead (Head.ofBytes b)) headSize
      else .halt (.size, p.setHead (Head.ofBytes b)) := by
  simp only [machine, hp]

/-- A field of a header is in its bytes. -/
theorem wordAt_take {pos n : Nat} (h : pos + n ≤ headSize) (b : Blob) :
    wordAt (b.take headSize) pos n = wordAt b pos n := by
  rw [wordAt, wordAt, drop_take, List.take_take, min_eq_left (by omega)]

theorem ofBytes_take (b : Blob) : Head.ofBytes (b.take headSize) = Head.ofBytes b := by
  simp (disch := decide) only [Head.ofBytes, wordAt_take]

theorem ofBytes_append (hb : headSize ≤ b.length) (x : Blob) :
    Head.ofBytes (b ++ x) = Head.ofBytes b := by
  rw [← ofBytes_take (b ++ x), take_append_of_le_length hb, ofBytes_take]

theorem badSignature_append (hb : 8 ≤ b.length) (x : Blob) :
    BadSignature (b ++ x) ↔ BadSignature b := by
  have hlen : 8 ≤ (b ++ x).length := by
    rw [length_append]
    omega
  rw [BadSignature, BadSignature, take_append_of_le_length hb]
  simp only [hb, hlen, true_and]

theorem badSignature_iff (hb : headSize ≤ b.length) :
    BadSignature b ↔ (Head.ofBytes b).signature ≠ levinSignature := by
  have hlen : 8 ≤ b.length := le_trans (by decide) hb
  exact and_iff_right hlen

/-- A turn of the loop is an act of the machine on what has not been used. -/
inductive Acted (c : Connection ε) : Turn ε → Act (Parser ε) (Failure × Parser ε) → Prop
  | take {p : Parser ε} {cache : Buffer} {n : Nat} :
      cache.contents = c.cacheInBuffer.contents.drop n →
      cache.storage.length ≤ c.cacheInBuffer.storage.length → Acted c (.go ⟨p, cache⟩) (.take p n)
  | wait : Acted c .wait .wait
  | halt (f : Failure) (p : Parser ε) : Acted c (.fail f p) (.halt (f, p))

section

variable (cmds : Commands ε)

theorem turn_act (max : Nat) (c : Connection ε) :
    Acted c (turn cmds max c) ((machine cmds max).act c.parser c.cacheInBuffer.contents) := by
  rw [turn]
  cases hstate : c.parser.state with
  | body =>
    simp only [act_body hstate, receiveBody, ← Buffer.size_eq]
    split_ifs with hwait
    · exact .wait
    · rcases Buffer.carve_eq (Nat.le_of_not_lt hwait) with ⟨cache, hcarve, hcontents, hstorage⟩
      rw [hcarve]
      simp only
      cases receivePacket cmds max
          (c.cacheInBuffer.contents.take c.parser.currentHead.cb.toNat)
          { c.parser with state := .head } with
      | go p => exact .take hcontents hstorage
      | fail f p => exact .halt f p
  | head =>
    simp only [act_head hstate, receiveHead, ← Buffer.size_eq]
    by_cases hfew : c.cacheInBuffer.size < headSize
    · simp only [if_pos hfew]
      by_cases height : 8 ≤ c.cacheInBuffer.size
      · rw [Buffer.span_eq height]
        by_cases hbad : BadSignature c.cacheInBuffer.contents
        · simp only [if_pos hbad, if_neg hbad.2]
          exact .halt _ _
        · have hgood : UInt64.ofNat (ofLittleEndian (c.cacheInBuffer.contents.take 8)) =
              levinSignature := by
            by_contra hne
            exact hbad ⟨Buffer.size_eq _ ▸ height, hne⟩
          simp only [if_neg hbad, if_pos hgood]
          exact .wait
      · rw [Buffer.span, if_neg height]
        have hgood : ¬ BadSignature c.cacheInBuffer.contents :=
          fun h => height (Buffer.size_eq _ ▸ h.1)
        simp only [if_neg hgood]
        exact .wait
    · have hle : headSize ≤ c.cacheInBuffer.size := Nat.le_of_not_lt hfew
      have hle' : headSize ≤ c.cacheInBuffer.contents.length := Buffer.size_eq _ ▸ hle
      rcases Buffer.erase_eq hle with ⟨cache, herase, hcontents, hstorage⟩
      simp only [if_neg hfew, Buffer.span_eq hle, herase, ofBytes_take]
      by_cases hsignature : (Head.ofBytes c.cacheInBuffer.contents).signature = levinSignature
      · have hgood : ¬ BadSignature c.cacheInBuffer.contents := by
          rw [badSignature_iff hle', not_not]
          exact hsignature
        split_ifs with hfits
        · exact .take hcontents hstorage
        · exact .halt _ _
      · have hbad : BadSignature c.cacheInBuffer.contents := (badSignature_iff hle').mpr hsignature
        simp only [if_neg hsignature, if_pos hbad]
        exact .halt _ _

/-! ## What a message does -/

/-- A message is handed over, unless it is a response and no handler can be taken for it. -/
def Parser.HandsOver (p : Parser ε) : Prop :=
  p.oponentProtocolVer = protocolVer1 ∧ p.currentHead.flags &&& packetResponse ≠ 0 →
    ∃ env, cmds.takeResponder p.env = some (true, env)

/-- A payload is handed over, or nothing is. -/
inductive Dispatched (p : Parser ε) (reassembled : Bool) (payload : Blob) : Parser ε → Prop
  | quiet (env : ε) : ¬ p.HandsOver cmds →
      Dispatched p reassembled payload { p with env := env }
  | deliver (kind : DeliveryKind) (env : ε) : p.HandsOver cmds →
      Dispatched p reassembled payload (p.deliver kind payload reassembled env)

theorem dispatch_cases (reassembled : Bool) (payload : Blob) (p : Parser ε) :
    ∃ p', Dispatched cmds p reassembled payload p' ∧
      (dispatch cmds reassembled payload p = .go p' ∨
        ∃ f, f ≠ .spent ∧ dispatch cmds reassembled payload p = .fail f p') := by
  rw [dispatch]
  split_ifs with hresponse
  · have hhands : p.HandsOver cmds ↔ ∃ env, cmds.takeResponder p.env = some (true, env) :=
      forall_prop_of_true hresponse
    cases htake : cmds.takeResponder p.env with
    | none =>
      exact ⟨p, .quiet p.env (by simp [hhands, htake]), .inr ⟨.noResponder, nofun, rfl⟩⟩
    | some taken =>
      rcases taken with ⟨cancelled, env⟩
      cases cancelled with
      | true => exact ⟨_, .deliver .response _ (hhands.mpr ⟨env, htake⟩), .inl rfl⟩
      | false => exact ⟨_, .quiet env (by simp [hhands, htake]), .inl rfl⟩
  · rcases invokeAndRespond cmds p.currentHead.command payload p.env with ⟨env, sent⟩
    cases sent with
    | true => exact ⟨_, .deliver .invoke env fun h => absurd h hresponse, .inl rfl⟩
    | false =>
      exact ⟨_, .deliver .invoke env fun h => absurd h hresponse, .inr ⟨.notSent, nofun, rfl⟩⟩
  · exact ⟨_, .deliver .notify _ fun h => absurd h hresponse, .inl rfl⟩

/-- A payload that was put together from fragments is longer than its command allows. -/
def Delivery.Exceeds (d : Delivery) : Prop :=
  d.reassembled = true ∧ getMaxBytes d.command < d.payload.length

/-- The fragments with those of a packet. -/
def Parser.fragmentsWith (p : Parser ε) (buff : Blob) : Blob :=
  (if p.currentHead.flags &&& packetBegin ≠ 0 then [] else p.fragmentBuffer) ++ buff

/-- A packet ends a message of fragments that is handed over although more bytes are behind the
    header in the fragments than the command in it allows. -/
def EndsOverlong (max : Nat) (buff : Blob) (p : Parser ε) : Prop :=
  let fragments := p.fragmentsWith buff
  let head := Head.ofBytes fragments
  p.currentHead.flags &&& (packetRequest ||| packetResponse) = 0 ∧
    p.currentHead.flags &&& (packetBegin ||| packetEnd) ≠ packetBegin ||| packetEnd ∧
    p.currentHead.flags &&& packetEnd ≠ 0 ∧ headSize ≤ fragments.length ∧ head.Fits max ∧
    { p with currentHead := head }.HandsOver cmds ∧
    getMaxBytes head.command < fragments.length - headSize

/-- What a packet may do to the parser: the bytes become fragments or a payload. -/
structure Packet (max : Nat) (buff : Blob) (p p' : Parser ε) : Prop where
  state : p'.state = p.state
  fragments : p'.fragmentBuffer.length ≤ p.fragmentBuffer.length + buff.length
  delivered : ∃ new, p'.delivered = p.delivered ++ new ∧
    (∀ d ∈ new, d.payload.length ≤ p.fragmentBuffer.length + buff.length ∧
      (d.reassembled = false → d.payload = buff ∧ d.command = p.currentHead.command)) ∧
    ((∃ d ∈ new, d.Exceeds) ↔ EndsOverlong cmds max buff p)

variable {cmds}

theorem Packet.quiet {buff : Blob} (p : Parser ε) (head : Head) {fragments : Blob}
    (h : fragments.length ≤ p.fragmentBuffer.length + buff.length)
    (hover : ¬ EndsOverlong cmds max buff p) :
    Packet cmds max buff p { p with fragmentBuffer := fragments, currentHead := head } :=
  ⟨rfl, h, [], (append_nil _).symm, nofun, by simp [hover]⟩

/-- The packet is a message. -/
theorem Packet.message {buff : Blob} (h : Dispatched cmds p false buff p')
    (hover : ¬ EndsOverlong cmds max buff p) : Packet cmds max buff p p' := by
  have hfragments : p.fragmentBuffer.length ≤ p.fragmentBuffer.length + buff.length :=
    le_add_right _ _
  cases h with
  | quiet env _ => exact ⟨rfl, hfragments, [], (append_nil _).symm, nofun, by simp [hover]⟩
  | deliver kind env _ =>
    refine ⟨rfl, hfragments, [_], rfl,
      forall_mem_singleton.mpr ⟨le_add_left _ _, fun _ => ⟨rfl, rfl⟩⟩, ?_⟩
    simp [Delivery.Exceeds, hover]

/-- The fragments are a message. -/
theorem Packet.whole {buff payload : Blob} {head : Head}
    (h : Dispatched cmds { p with fragmentBuffer := [], currentHead := head } true payload p')
    (hlen : payload.length ≤ p.fragmentBuffer.length + buff.length)
    (hover : EndsOverlong cmds max buff p ↔ { p with currentHead := head }.HandsOver cmds ∧
      getMaxBytes head.command < payload.length) : Packet cmds max buff p p' := by
  cases h with
  | quiet env hhands =>
    refine ⟨rfl, zero_le _, [], (append_nil _).symm, nofun, iff_of_false (by simp) fun h => ?_⟩
    exact hhands (hover.mp h).1
  | deliver kind env hhands =>
    refine ⟨rfl, zero_le _, [_], rfl, forall_mem_singleton.mpr ⟨hlen, nofun⟩, ?_⟩
    simp only [mem_singleton, exists_eq_left, hover]
    exact ⟨fun h => ⟨hhands, h.2⟩, fun h => ⟨rfl, h.2⟩⟩

variable (cmds)

theorem Parser.length_fragmentsWith (p : Parser ε) (buff : Blob) :
    (p.fragmentsWith buff).length ≤ p.fragmentBuffer.length + buff.length := by
  rw [fragmentsWith, length_append]
  split_ifs
  · rw [length_nil]
    omega
  · exact le_refl _

theorem receivePacket_cases (max : Nat) (buff : Blob) (p : Parser ε) :
    ∃ p', Packet cmds max buff p p' ∧ (receivePacket cmds max buff p = .go p' ∨
        ∃ f, f ≠ .spent ∧ receivePacket cmds max buff p = .fail f p') := by
  have hlen := p.length_fragmentsWith buff
  simp only [receivePacket, ← Parser.fragmentsWith.eq_1]
  split_ifs with hpart hnoise hlast hsmall hfits
  · exact ⟨p, .quiet p _ (le_add_right _ _) fun h => h.2.1 hnoise, .inl rfl⟩
  · exact ⟨_, .quiet p _ hlen fun h => h.2.2.1 hlast, .inl rfl⟩
  · exact ⟨_, .quiet p _ hlen fun h => Nat.not_le.mpr hsmall h.2.2.2.1,
      .inr ⟨.fragmentTooSmall, nofun, rfl⟩⟩
  · have hpayload : ((p.fragmentsWith buff).drop headSize).length ≤
        p.fragmentBuffer.length + buff.length := by
      rw [length_drop]
      omega
    rcases dispatch_cases cmds true ((p.fragmentsWith buff).drop headSize)
      { p with fragmentBuffer := [], currentHead := Head.ofBytes (p.fragmentsWith buff) } with
        ⟨p', hp', hend⟩
    refine ⟨p', .whole hp' hpayload ?_, hend⟩
    rw [length_drop]
    exact ⟨fun h => h.2.2.2.2.2, fun h => ⟨hpart, hnoise, hlast, Nat.not_lt.mp hsmall, hfits, h⟩⟩
  · exact ⟨_, .quiet p _ (zero_le _) fun h => hfits h.2.2.2.2.1,
      .inr ⟨.size, nofun, rfl⟩⟩
  · rcases dispatch_cases cmds false buff p with ⟨p', hp', hend⟩
    exact ⟨p', .message hp' fun h => hpart h.1, hend⟩

/-- What an act may do: a header is read, or a packet is used up, or the machine stops. -/
inductive Did (max : Nat) (p : Parser ε) (b : Blob) : Act (Parser ε) (Failure × Parser ε) → Prop
  | head : p.state = .head → headSize ≤ b.length → (Head.ofBytes b).Fits max →
      Did max p b (.take (p.setHead (Head.ofBytes b)) headSize)
  | body {p' : Parser ε} : p.state = .body → p.currentHead.cb.toNat ≤ b.length →
      Packet cmds max (b.take p.currentHead.cb.toNat) { p with state := .head } p' →
      Did max p b (.take p' p.currentHead.cb.toNat)
  | wait : (p.state = .body → b.length < p.currentHead.cb.toNat) → Did max p b .wait
  | quiet {f : Failure} {p' : Parser ε} : f ≠ .spent → p.state = .head →
      p'.delivered = p.delivered → Did max p b (.halt (f, p'))
  | halt {f : Failure} {p' : Parser ε} : f ≠ .spent → p.state = .body →
      p.currentHead.cb.toNat ≤ b.length →
      Packet cmds max (b.take p.currentHead.cb.toNat) { p with state := .head } p' →
      Did max p b (.halt (f, p'))

theorem machine_did (max : Nat) (p : Parser ε) (b : Blob) :
    Did cmds max p b ((machine cmds max).act p b) := by
  cases hstate : p.state with
  | body =>
    rw [act_body hstate]
    split_ifs with hwait
    · exact .wait fun _ => hwait
    · have hle : p.currentHead.cb.toNat ≤ b.length := Nat.le_of_not_lt hwait
      rcases receivePacket_cases cmds max (b.take p.currentHead.cb.toNat)
        { p with state := .head } with ⟨p', hp', hgo | ⟨f, hspent, hfail⟩⟩
      · rw [hgo]
        exact .body hstate hle hp'
      · rw [hfail]
        exact .halt hspent hstate hle hp'
  | head =>
    rw [act_head hstate]
    split_ifs with hbad hwait hfits
    · exact .quiet nofun hstate rfl
    · exact .wait fun hbody => nomatch hstate.symm.trans hbody
    · exact .head hstate (Nat.le_of_not_lt hwait) hfits
    · exact .quiet nofun hstate rfl

/-- What the machine does, it does with more to come. -/
theorem machine_steady (max : Nat) : (machine cmds max).Steady := by
  -- In each state more bytes change nothing but a wait.
  have hmore : ∀ (p : Parser ε) (b x : Blob), (machine cmds max).act p b = .wait ∨
      (machine cmds max).act p (b ++ x) = (machine cmds max).act p b := by
    intro p b x
    have hlen : b.length ≤ (b ++ x).length := by
      rw [length_append]
      omega
    cases hstate : p.state with
    | body =>
      by_cases hwait : b.length < p.currentHead.cb.toNat
      · exact .inl (by rw [act_body hstate, if_pos hwait])
      · right
        rw [act_body hstate, act_body hstate, if_neg hwait, if_neg (by omega),
          take_append_of_le_length (Nat.le_of_not_lt hwait)]
    | head =>
      by_cases hbad : BadSignature b
      · right
        rw [act_head hstate, act_head hstate, if_pos hbad,
          if_pos ((badSignature_append hbad.1 x).mpr hbad)]
      · by_cases hwait : b.length < headSize
        · exact .inl (by rw [act_head hstate, if_neg hbad, if_pos hwait])
        · right
          have hle : headSize ≤ b.length := Nat.le_of_not_lt hwait
          have height : 8 ≤ b.length := le_trans (by decide) hle
          rw [act_head hstate, act_head hstate, if_neg hbad,
            if_neg (mt (badSignature_append height x).mp hbad), if_neg hwait, if_neg (by omega),
            ofBytes_append hle]
  constructor
  · intro p p' b n h
    have hdid := machine_did cmds max p b
    rw [h] at hdid
    cases hdid with
    | head _ hle _ => exact hle
    | body _ hle _ => exact hle
  · intro p p' b n x h
    rcases hmore p b x with hwait | hsame
    · rw [hwait] at h
      cases h
    · rw [hsame, h]
  · intro p b h' x h
    rcases hmore p b x with hwait | hsame
    · rw [hwait] at h
      cases h
    · rw [hsame, h]

end

/-! ## Calls -/

/-- The acts that are left at most. -/
def Parser.work (p : Parser ε) (b : Blob) : Nat :=
  2 * b.length + if p.state = .body then 1 else 0

section

variable {n : Nat} (h : (machine cmds max).act p b = .take p' n)
include n h

/-- The machine gets closer to the end of what it was given. -/
theorem act_work : p'.work (b.drop n) < p.work b := by
  have hdid := machine_did cmds max p b
  rw [h] at hdid
  cases hdid with
  | head hstate hle _ =>
    have hpos : 0 < headSize := by decide
    have hbody : (p.setHead (Head.ofBytes b)).state = .body := rfl
    rw [Parser.work, Parser.work, hstate, hbody, length_drop, if_pos rfl, if_neg nofun]
    omega
  | body hstate hle hpacket =>
    rw [Parser.work, Parser.work, hstate, hpacket.state, length_drop, if_pos rfl, if_neg nofun]
    omega

/-- No act adds to what is kept. -/
theorem act_bytes :
    p'.fragmentBuffer.length + (b.drop n).length ≤ p.fragmentBuffer.length + b.length := by
  have hdid := machine_did cmds max p b
  rw [h] at hdid
  cases hdid with
  | head _ _ _ => exact Nat.add_le_add_left (length_drop ▸ Nat.sub_le _ _) _
  | body _ hle hpacket =>
    have hfragments := hpacket.fragments
    rw [List.length_take] at hfragments
    rw [length_drop]
    simp only at hfragments
    omega

end

theorem runs_bytes (h : (machine cmds max).Runs p b (.waiting p' b')) :
    p'.fragmentBuffer.length + b'.length ≤ p.fragmentBuffer.length + b.length := by
  generalize ho : Incremental.Outcome.waiting p' b' = o at h
  induction h with
  | wait _ =>
    cases ho
    exact le_refl _
  | halt _ => cases ho
  | take hact _ ih => exact (ih ho).trans (act_bytes hact)

/-- A limit that no size in a header can reach. -/
def unlimited : Nat := 2 ^ 64

theorem fits_unlimited {h : Head} (hfits : h.Fits max) : h.Fits unlimited := by
  have hlt : h.cb.toNat < 2 ^ 64 := h.cb.toNat_lt
  exact le_min hlt.le (hfits.trans (min_le_right _ _))

section

variable (cmds : Commands ε) (max : Nat)

/-- A limit shows in one way only. -/
theorem receivePacket_unlimited (buff : Blob) (p : Parser ε) :
    (∃ p', receivePacket cmds max buff p = .fail .size p') ∨
      receivePacket cmds max buff p = receivePacket cmds unlimited buff p := by
  rw [receivePacket, receivePacket]
  generalize (if p.currentHead.flags &&& packetBegin ≠ 0 then [] else p.fragmentBuffer) ++
    buff = fragments
  by_cases hfits : (Head.ofBytes fragments).Fits max
  · simp only [if_pos hfits, if_pos (fits_unlimited hfits), or_true]
  · simp only [if_neg hfits]
    split_ifs
    · exact .inr rfl
    · exact .inr rfl
    · exact .inr rfl
    · exact .inl ⟨_, rfl⟩
    · exact .inl ⟨_, rfl⟩
    · exact .inr rfl

theorem act_unlimited (p : Parser ε) (b : Blob) :
    (∃ p', (machine cmds max).act p b = .halt (.size, p')) ∨
      (machine cmds max).act p b = (machine cmds unlimited).act p b := by
  cases hstate : p.state with
  | body =>
    rw [act_body hstate, act_body hstate]
    split_ifs with hwait
    · exact .inr rfl
    · rcases receivePacket_unlimited cmds max (b.take p.currentHead.cb.toNat)
        { p with state := .head } with ⟨p', hsize⟩ | hsame
      · rw [hsize]
        exact .inl ⟨p', rfl⟩
      · rw [hsame]
        exact .inr rfl
  | head =>
    rw [act_head hstate, act_head hstate]
    split_ifs with hbad hwait hfits hfits'
    · exact .inr rfl
    · exact .inr rfl
    · exact .inr rfl
    · exact absurd (fits_unlimited hfits) hfits'
    · exact .inl ⟨_, rfl⟩
    · exact .inr rfl

/-- What the machine sees of the end of a call. -/
def Outcome.view : Outcome ε → Incremental.Outcome UInt8 (Parser ε) (Failure × Parser ε)
  | .returned c => .waiting c.parser c.cacheInBuffer.contents
  | .failed f p => .halted (f, p)

theorem Outcome.of_view_waiting {o : Outcome ε} (h : o.view = .waiting p b) :
    ∃ c, o = .returned c ∧ c.parser = p ∧ c.cacheInBuffer.contents = b := by
  cases o with
  | returned c =>
    injection h with hparser hcontents
    exact ⟨c, rfl, hparser, hcontents⟩
  | failed f p => cases h

theorem Outcome.of_view_halted {o : Outcome ε} (h : o.view = .halted (f, p)) : o = .failed f p := by
  cases o with
  | returned c => cases h
  | failed f' p' =>
    cases h
    rfl

/-- The parser at the end of a call. -/
def Outcome.parser : Outcome ε → Parser ε
  | .returned c => c.parser
  | .failed _ p => p

/-- The loop runs the machine, and it has turns enough for it. -/
theorem loop_runs {fuel : Nat} (hfuel : c.parser.work c.cacheInBuffer.contents < fuel) :
    (machine cmds max).Runs c.parser c.cacheInBuffer.contents (loop cmds max fuel c).view := by
  induction fuel generalizing c with
  | zero => exact absurd hfuel (not_lt_zero _)
  | succ fuel ih =>
    rw [loop]
    have hacted := turn_act cmds max c
    generalize turn cmds max c = t at hacted
    generalize hact : (machine cmds max).act c.parser c.cacheInBuffer.contents = a at hacted
    cases hacted with
    | @take p cache _ hcontents _ =>
      have hwork := act_work hact
      rw [← hcontents] at hwork
      refine .take hact ?_
      rw [← hcontents]
      exact ih (c := ⟨p, cache⟩) (hwork.trans_le (le_of_lt_succ hfuel))
    | wait => exact .wait hact
    | halt f p => exact .halt hact

end

/-- The loop needs no more storage. -/
theorem loop_storage {fuel : Nat} (h : loop cmds max fuel c = .returned c') :
    c'.cacheInBuffer.storage.length ≤ c.cacheInBuffer.storage.length := by
  induction fuel generalizing c with
  | zero => cases h
  | succ fuel ih =>
    rw [loop] at h
    have hacted := turn_act cmds max c
    generalize turn cmds max c = t at hacted h
    generalize (machine cmds max).act c.parser c.cacheInBuffer.contents = a at hacted
    cases hacted with
    | take _ hstorage => exact (ih h).trans hstorage
    | wait =>
      cases h
      exact le_refl _
    | halt f p => cases h

theorem runs_unlimited {o : Incremental.Outcome UInt8 (Parser ε) (Failure × Parser ε)}
    (h : (machine cmds max).Runs p b o) (hsize : ∀ p', o ≠ .halted (.size, p')) :
    (machine cmds unlimited).Runs p b o := by
  -- An act that a limit changes is the last one, and it shows in the outcome.
  have hsame {p b} (hne : ∀ p', (machine cmds max).act p b ≠ .halt (.size, p')) :
      (machine cmds unlimited).act p b = (machine cmds max).act p b := by
    rcases act_unlimited cmds max p b with ⟨p', hlarge⟩ | hsame
    · exact absurd hlarge (hne p')
    · exact hsame.symm
  induction h with
  | wait hact =>
    refine .wait ((hsame ?_).trans hact)
    rw [hact]
    exact nofun
  | halt hact =>
    refine .halt ((hsame ?_).trans hact)
    rw [hact]
    intro p' heq
    cases heq
    exact hsize p' rfl
  | take hact _ ih =>
    refine .take ((hsame ?_).trans hact) (ih hsize)
    rw [hact]
    exact nofun

variable (cmds)

/-- A call is not refused. -/
structure Connection.Admits (c : Connection ε) (chunk : Blob) : Prop where
  opened : cmds.closeCalled c.parser.env = false
  takes : c.Takes (c.maxPacketSize cmds) chunk.length
  room : c.cacheInBuffer.storage.length < 2 ^ 64 - 1 - chunk.length

/-- A call that is not refused runs the machine on what was kept and what has arrived. -/
theorem handleRecv_taken {chunk : Blob} (h : c.Admits cmds chunk) :
    (machine cmds (c.maxPacketSize cmds)).Runs c.parser (c.cacheInBuffer.contents ++ chunk)
        (handleRecv cmds chunk c).view ∧
      ∀ c', handleRecv cmds chunk c = .returned c' →
        c'.cacheInBuffer.storage.length ≤ c.cacheInBuffer.storage.length + chunk.length := by
  have happend : c.cacheInBuffer.append chunk =
      some ((c.cacheInBuffer.makeRoom chunk.length).insert chunk) := if_pos h.room
  rw [handleRecv, if_neg (Bool.not_eq_true _ ▸ h.opened), if_pos h.takes, happend]
  generalize (c.cacheInBuffer.makeRoom chunk.length).insert chunk = cache at happend
  have hwork : c.parser.work cache.contents < 2 * cache.size + 2 := by
    rw [Parser.work, Buffer.size_eq]
    split_ifs <;> omega
  constructor
  · have hruns := loop_runs (c := ⟨c.parser, cache⟩) cmds (c.maxPacketSize cmds) hwork
    rw [Buffer.append_contents happend] at hruns
    exact hruns
  · intro c' hreturned
    exact (loop_storage hreturned).trans (Buffer.append_storage happend)

/-- A call is refused since the connection is being closed, or for a size, or it runs the
    machine. -/
theorem handleRecv_cases (chunk : Blob) (c : Connection ε) :
    ¬ c.Admits cmds chunk ∧ (handleRecv cmds chunk c = .failed .closing c.parser ∨
        handleRecv cmds chunk c = .failed .size c.parser) ∨
      c.Admits cmds chunk ∧
        (machine cmds (c.maxPacketSize cmds)).Runs c.parser (c.cacheInBuffer.contents ++ chunk)
          (handleRecv cmds chunk c).view := by
  by_cases hclose : cmds.closeCalled c.parser.env = true
  · exact .inl ⟨fun h => (nomatch hclose.symm.trans h.opened), .inl (if_pos hclose)⟩
  · by_cases htakes : c.Takes (c.maxPacketSize cmds) chunk.length
    · by_cases hroom : c.cacheInBuffer.storage.length < 2 ^ 64 - 1 - chunk.length
      · have hadmits : c.Admits cmds chunk := ⟨Bool.eq_false_of_not_eq_true hclose, htakes, hroom⟩
        exact .inr ⟨hadmits, (handleRecv_taken cmds hadmits).1⟩
      · refine .inl ⟨fun h => hroom h.room, .inr ?_⟩
        rw [handleRecv, if_neg hclose, if_pos htakes, Buffer.append, if_neg hroom]
    · refine .inl ⟨fun h => htakes h.takes, .inr ?_⟩
      rw [handleRecv, if_neg hclose, if_neg htakes]

/-- Why a call failed. -/
def Outcome.failure : Outcome ε → Option Failure
  | .returned _ => none
  | .failed f _ => some f

/-- The calls were not stopped by a limit or by a connection that is being closed. -/
def Outcome.Accepted (o : Outcome ε) : Prop :=
  o.failure ≠ some .size ∧ o.failure ≠ some .closing

instance (o : Outcome ε) : Decidable o.Accepted :=
  inferInstanceAs (Decidable (_ ∧ _))

theorem feed_cons (chunk : Blob) (chunks : List Blob) (c : Connection ε) :
    feed cmds (chunk :: chunks) c = match handleRecv cmds chunk c with
      | .returned c => feed cmds chunks c
      | .failed f p => .failed f p :=
  rfl

/-- Calls that are not refused feed the machine. -/
theorem feed_feeds (chunks : List Blob) (c : Connection ε) (h : (feed cmds chunks c).Accepted) :
    (machine cmds unlimited).Feeds c.parser c.cacheInBuffer.contents chunks
      (feed cmds chunks c).view := by
  induction chunks generalizing c with
  | nil => exact .nil
  | cons chunk chunks ih =>
    rw [feed_cons] at h ⊢
    have hruns := handleRecv_cases cmds chunk c
    cases hrecv : handleRecv cmds chunk c with
    | returned c' =>
      rw [hrecv] at h hruns
      rcases hruns with ⟨-, hclosing | hsize⟩ | ⟨-, hruns⟩
      · cases hclosing
      · cases hsize
      · exact .next (runs_unlimited hruns nofun) (ih c' h)
    | failed f p =>
      rw [hrecv] at h hruns
      rcases hruns with ⟨-, hclosing | hsize⟩ | ⟨-, hruns⟩
      · cases hclosing
        exact absurd rfl h.2
      · cases hsize
        exact absurd rfl h.1
      · refine .halt (runs_unlimited hruns ?_)
        intro p' heq
        cases heq
        exact h.1 rfl

variable {cmds}

/-- A parser with nothing to read waits for a header. -/
theorem act_nil (hp : p.state = .head) : (machine cmds max).act p [] = .wait := by
  have hgood : ¬ BadSignature [] := fun h => absurd h.1 (by decide)
  rw [act_head hp, if_neg hgood, if_pos (by decide)]

/-- Two ways to cut a stream lead to one end. -/
theorem feed_unique {as bs : List Blob} (hstate : c.parser.state = .head)
    (hempty : c.cacheInBuffer.contents = []) (hcuts : as.flatten = bs.flatten)
    (ha : (feed cmds as c).Accepted) (hb : (feed cmds bs c).Accepted) :
    (feed cmds as c).view = (feed cmds bs c).view := by
  have hwait : (machine cmds unlimited).act c.parser c.cacheInBuffer.contents = .wait := by
    rw [hempty]
    exact act_nil hstate
  exact (feed_feeds cmds as c ha).unique (machine_steady cmds unlimited) hwait hcuts
    (feed_feeds cmds bs c hb)

/-! ## Headers on the wire -/

theorem toBytes_length (h : Head) : h.toBytes.length = headSize := by
  simp only [Head.toBytes, length_append, Codec.littleEndian_length, headSize]

theorem wordAt_front (n v : Nat) (rest : Blob) :
    wordAt (littleEndian n v ++ rest) 0 n = v % 256 ^ n := by
  rw [wordAt, drop_zero, take_left' (Codec.littleEndian_length n v),
    Codec.ofLittleEndian_littleEndian]

theorem wordAt_skip {m pos : Nat} (hpos : m ≤ pos) (n v : Nat) (rest : Blob) :
    wordAt (littleEndian m v ++ rest) pos n = wordAt rest (pos - m) n := by
  rw [wordAt, wordAt, drop_append, Codec.littleEndian_length,
    drop_eq_nil_of_le (by rwa [Codec.littleEndian_length]), nil_append]

/-- A header is read as it was written. -/
theorem ofBytes_toBytes (h : Head) (rest : Blob) : Head.ofBytes (h.toBytes ++ rest) = h := by
  simp (disch := decide) only [Head.ofBytes, Head.toBytes, append_assoc, wordAt_skip,
    reduceSub, wordAt_front]
  have h8 (x : UInt8) : UInt8.ofNat (x.toNat % 256 ^ 1) = x := by
    rw [mod_eq_of_lt (show x.toNat < 256 ^ 1 from x.toNat_lt), UInt8.ofNat_toNat]
  have h32 (x : UInt32) : UInt32.ofNat (x.toNat % 256 ^ 4) = x := by
    rw [mod_eq_of_lt (show x.toNat < 256 ^ 4 from x.toNat_lt), UInt32.ofNat_toNat]
  have h64 (x : UInt64) : UInt64.ofNat (x.toNat % 256 ^ 8) = x := by
    rw [mod_eq_of_lt (show x.toNat < 256 ^ 8 from x.toNat_lt), UInt64.ofNat_toNat]
  rw [h64, h64, h8, h32, h32, h32, h32]

/-- The parser once a header was read, as a packet finds it. -/
def Parser.withHead (p : Parser ε) (head : Head) : Parser ε :=
  { p with currentHead := head, oponentProtocolVer := head.protocolVersion }

/-- The machine reads a header. -/
theorem act_toBytes {head : Head} {rest : Blob} (hp : p.state = .head)
    (hsignature : head.signature = levinSignature) :
    (machine cmds max).act p (head.toBytes ++ rest) =
      if head.Fits max then .take (p.setHead head) headSize else .halt (.size, p.setHead head) := by
  have hlen : headSize ≤ (head.toBytes ++ rest).length := by
    rw [length_append, toBytes_length]
    omega
  have hgood : ¬ BadSignature (head.toBytes ++ rest) := by
    rw [badSignature_iff hlen, ofBytes_toBytes, not_not]
    exact hsignature
  rw [act_head hp, if_neg hgood, if_neg (Nat.not_lt_of_le hlen), ofBytes_toBytes]

/-- The machine reads a body. -/
theorem act_packet (cmds : Commands ε) (max : Nat) {head : Head} {body : Blob}
    (hp : p.state = .head) (hlen : body.length = head.cb.toNat) (rest : Blob) :
    (machine cmds max).act (p.setHead head) (body ++ rest) =
      match receivePacket cmds max body (p.withHead head) with
      | .go p' => .take p' body.length
      | .fail f p' => .halt (f, p') := by
  have hle : ¬ (body ++ rest).length < head.cb.toNat := by
    rw [length_append]
    omega
  have hwith : { p.setHead head with state := .head } = p.withHead head := by
    rw [Parser.setHead, Parser.withHead, hp]
  have hcb : (p.setHead head).currentHead.cb = head.cb := rfl
  rw [act_body (show (p.setHead head).state = .body from rfl), hcb, if_neg hle, hwith, ← hlen,
    take_left]

end Levin

end CocaineNode
