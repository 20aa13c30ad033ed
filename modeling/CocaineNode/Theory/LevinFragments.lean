import CocaineNode.Theory.LevinStream

/-!
# Messages in Fragments

`make_fragmented_notify` turns a message into packets of one size, and the
parser puts them together again.

A short message is one packet that is filled up with zeros. A longer one is cut
together with its header. The fragments are taken without a trace until the last
of them is there, and then the whole is a notification like any other, with the
zeros of the last fragment behind its payload.

Where a call stops in between does not matter. The bytes that are kept never
grow, so a connection that can hold the whole output takes it in any chunks.

## Theorems

* `Levin.feed_ends`: A connection that can hold a stream takes it in any chunks.
* `Levin.cuts_and_fragments`: Neither cuts nor fragments show.
-/

namespace CocaineNode

open List

namespace Levin

section Fragments

variable {ε : Type} {cmds : Commands ε} {max : Nat} {c c' : Connection ε} {p q e : Parser ε}
  {head : Head} {body payload : Blob} {noiseSize fuel : Nat}

/-! ## Packets by their flags -/

theorem receive_begin (hflags : head.flags = packetBegin) :
    receivePacket cmds max body (p.withHead head) =
      .go { p.withHead head with fragmentBuffer := body } := by
  have hcurrent : (p.withHead head).currentHead.flags = packetBegin := hflags
  rw [receivePacket, hcurrent]
  rfl

theorem receive_middle (hflags : head.flags = 0) : receivePacket cmds max body (p.withHead head) =
      .go { p.withHead head with fragmentBuffer := p.fragmentBuffer ++ body } := by
  have hcurrent : (p.withHead head).currentHead.flags = 0 := hflags
  rw [receivePacket, hcurrent]
  rfl

/-- The last fragment makes the whole. -/
theorem receive_end {whole : Blob} (hflags : head.flags = packetEnd)
    (hwhole : p.fragmentBuffer ++ body = whole) (hlen : headSize ≤ whole.length) :
    receivePacket cmds max body (p.withHead head) = if (Head.ofBytes whole).Fits max then
        dispatch cmds true (whole.drop headSize)
          { p.withHead head with fragmentBuffer := [], currentHead := Head.ofBytes whole }
      else .fail .size
        { p.withHead head with fragmentBuffer := [], currentHead := Head.ofBytes whole } := by
  have hcurrent : (p.withHead head).currentHead.flags = packetEnd := hflags
  rw [receivePacket, hcurrent]
  subst hwhole
  exact if_neg (Nat.not_lt_of_le hlen)

theorem receive_message (hflags : head.flags = packetRequest) :
    receivePacket cmds max body (p.withHead head) = dispatch cmds false body (p.withHead head) := by
  have hcurrent : (p.withHead head).currentHead.flags = packetRequest := hflags
  rw [receivePacket, hcurrent, if_neg (by decide)]

/-- A message that asks for nothing is a notification. -/
theorem dispatch_notify (reassembled : Bool) (payload : Blob)
    (hflags : p.currentHead.flags = packetRequest) (hreturn : p.currentHead.haveToReturnData = 0) :
    dispatch cmds reassembled payload p = .go (p.deliver .notify payload reassembled
        (cmds.notify p.currentHead.command payload p.env)) := by
  have hresponse : ¬ (p.oponentProtocolVer = protocolVer1 ∧
      p.currentHead.flags &&& packetResponse ≠ 0) := by
    rw [hflags]
    exact fun h => h.2 (by decide)
  rw [dispatch, if_neg hresponse, if_neg (not_not.mpr hreturn)]

/-! ## The way to the last fragment -/

/-- Nothing was handed over since. -/
def Quiet (p₀ p : Parser ε) : Prop :=
  p.env = p₀.env ∧ p.delivered = p₀.delivered

variable {n : Nat}

theorem makeHeader_cb (hn : n < 2 ^ 64) (command flags : UInt32) (expect : Bool) :
    (makeHeader command n flags expect).cb.toNat = n :=
  UInt64.toNat_ofNat_of_lt hn

theorem makeHeader_fits (hn : n < 2 ^ 64) (command flags : UInt32) (expect : Bool) :
    (makeHeader command n flags expect).Fits max ↔ n ≤ max ∧ n ≤ getMaxBytes command := by
  rw [Head.Fits, makeHeader_cb hn, le_min_iff]
  rfl

/-- The header of a fragment is read. -/
theorem act_fragment {flags : UInt32} (hp : p.state = .head) (hn : n < 2 ^ 64) (hmax : n ≤ max)
    (rest : Blob) :
    (machine cmds max).act p ((makeHeader 0 n flags false).toBytes ++ rest) =
      .take (p.setHead (makeHeader 0 n flags false)) headSize := by
  have hfits : (makeHeader 0 n flags false).Fits max :=
    (makeHeader_fits hn 0 flags false).mpr ⟨hmax, Nat.le_of_lt_succ hn⟩
  rw [act_toBytes hp rfl, if_pos hfits]

/-- A fragment that is not the last is kept. -/
theorem leads_fragment {flags : UInt32} {rest d : Blob} {p' : Parser ε} (hp : p.state = .head)
    (hn : n < 2 ^ 64) (hmax : n ≤ max) (hlen : body.length = n)
    (hgo : receivePacket cmds max body (p.withHead (makeHeader 0 n flags false)) = .go p')
    (hquiet : Quiet p p') (hrest : (machine cmds max).Leads (Quiet p) p' rest q d) :
    (machine cmds max).Leads (Quiet p) p
      ((makeHeader 0 n flags false).toBytes ++ (body ++ rest)) q d := by
  have hbody := act_packet cmds max hp (hlen.trans (makeHeader_cb hn 0 flags false).symm) rest
  rw [hgo] at hbody
  refine .take (act_fragment hp hn hmax _) ⟨rfl, rfl⟩ ?_
  rw [drop_left' (toBytes_length _)]
  refine .take hbody hquiet ?_
  rw [drop_left]
  exact hrest

theorem fragmentLoop_nil (noiseSize fuel copySize : Nat) : fragmentLoop noiseSize fuel [] copySize =
      replicate (noiseSize - copySize - headSize) 0 := by
  cases fuel with
  | zero => rfl
  | succ fuel => exact if_pos rfl

/-- The last fragment is filled up. -/
theorem fragmentLoop_last (hpayload : payload ≠ []) (hlen : payload.length ≤ noiseSize - headSize)
    (copySize : Nat) :
    fragmentLoop noiseSize (fuel + 1) payload copySize =
      (makeHeader 0 (noiseSize - headSize) packetEnd false).toBytes ++
        (payload ++ replicate (noiseSize - payload.length - headSize) 0) := by
  rw [fragmentLoop, if_neg hpayload]
  simp only [drop_eq_nil_of_le hlen, take_of_length_le hlen, fragmentLoop_nil, if_true]

theorem fragmentLoop_next (hlen : noiseSize - headSize < payload.length) (copySize : Nat) :
    fragmentLoop noiseSize (fuel + 1) payload copySize =
      (makeHeader 0 (noiseSize - headSize) 0 false).toBytes ++
        (payload.take (noiseSize - headSize) ++
          fragmentLoop noiseSize fuel (payload.drop (noiseSize - headSize))
            (payload.take (noiseSize - headSize)).length) := by
  have hpayload : payload ≠ [] := ne_nil_of_length_pos (Nat.zero_lt_of_lt hlen)
  have hrest : payload.drop (noiseSize - headSize) ≠ [] := by
    rw [Ne, drop_eq_nil_iff]
    omega
  rw [fragmentLoop, if_neg hpayload]
  simp only [if_neg hrest]

/-- The last fragment has been announced, and with it the whole is there. -/
structure Ready (p₀ : Parser ε) (whole : Blob) (p : Parser ε) (body : Blob) : Prop where
  state : p.state = .head
  quiet : Quiet p₀ p
  whole : p.fragmentBuffer ++ body = whole

/-- What is left when a fragment is cut off. -/
theorem cut_at {n : Nat} {payload : Blob} (h : n < payload.length) :
    (payload.take n).length = n ∧ payload.drop n ≠ [] ∧
      (payload.drop n).length = payload.length - n := by
  rw [length_take, Ne, drop_eq_nil_iff, length_drop]
  omega

/-- The fragments lead to the last of them. How much it is filled up does not depend on who reads
    them. -/
theorem fragmentLoop_leads (hnoise : headSize < noiseSize) (hmemory : noiseSize < 2 ^ 64)
    (hpayload : payload ≠ []) (hfuel : payload.length ≤ fuel) (copySize : Nat) :
    ∃ k, ∀ (cmds : Commands ε) (max : Nat) (p : Parser ε), p.state = .head →
      noiseSize - headSize ≤ max → ∃ q body,
        Ready p (p.fragmentBuffer ++ (payload ++ replicate k 0)) q body ∧
        body.length = noiseSize - headSize ∧
        (machine cmds max).Leads (Quiet p) p (fragmentLoop noiseSize fuel payload copySize)
          (q.setHead (makeHeader 0 (noiseSize - headSize) packetEnd false)) body := by
  have hspace : noiseSize - headSize < 2 ^ 64 := lt_of_le_of_lt (Nat.sub_le _ _) hmemory
  induction fuel generalizing payload copySize with
  | zero => exact absurd (length_eq_zero_iff.mp (Nat.le_zero.mp hfuel)) hpayload
  | succ fuel ih =>
    by_cases hlast : payload.length ≤ noiseSize - headSize
    · refine ⟨noiseSize - payload.length - headSize, fun cmds max p hp hmax => ?_⟩
      refine ⟨p, _, ⟨hp, ⟨rfl, rfl⟩, rfl⟩, ?_, ?_⟩
      · rw [length_append, length_replicate]
        omega
      · rw [fragmentLoop_last hpayload hlast]
        refine .take (act_fragment hp hspace hmax _) ⟨rfl, rfl⟩ ?_
        exact .here
    · have hnext : noiseSize - headSize < payload.length := Nat.lt_of_not_le hlast
      rcases cut_at hnext with ⟨hlen, hrest, hdrop⟩
      rcases ih hrest (by omega) (payload.take (noiseSize - headSize)).length with ⟨k, hk⟩
      refine ⟨k, fun cmds max p hp hmax => ?_⟩
      -- The fragment joins those before it, and the rest goes on from there.
      rcases hk cmds max { p.withHead (makeHeader 0 (noiseSize - headSize) 0 false) with
        fragmentBuffer := p.fragmentBuffer ++ payload.take (noiseSize - headSize) } hp hmax with
        ⟨q, body, hready, hbody, hleads⟩
      refine ⟨q, body, ⟨hready.state, hready.quiet, ?_⟩, hbody, ?_⟩
      · rw [hready.whole]
        simp only [append_assoc]
        rw [← append_assoc (payload.take _), take_append_drop]
      · rw [fragmentLoop_next hnext]
        exact leads_fragment hp hspace hmax hlen (receive_middle rfl) ⟨rfl, rfl⟩ hleads

/-! ## The message -/

/-- The machine hands over one payload, with its last act. -/
def Delivers (cmds : Commands ε) (max : Nat) (p : Parser ε) (out : Blob) (d : Delivery) : Prop :=
  ∃ q body e, Quiet p q ∧ (machine cmds max).Leads (Quiet p) p out q body ∧
    (machine cmds max).act q body = .take e body.length ∧ e.state = .head ∧
      e.delivered = p.delivered ++ [d]

/-- The machine stops at a size. -/
def Stops (cmds : Commands ε) (max : Nat) (p : Parser ε) (out : Blob) : Prop :=
  ∃ p', (machine cmds max).Runs p out (.halted (.size, p'))

theorem finalizeNotify_length (command : UInt32) (message : Blob) :
    (finalizeNotify command message).length = headSize + message.length := by
  rw [finalizeNotify, length_append, toBytes_length]

variable {command : UInt32}

section

variable (hlen : payload.length < 2 ^ 64) (hp : p.state = .head)
include hlen hp

/-- A message in one packet. -/
theorem finalizeNotify_delivers
    (hmax : payload.length ≤ max) (hcommand : payload.length ≤ getMaxBytes command) :
    Delivers cmds max p (finalizeNotify command payload) ⟨.notify, command, payload, false⟩ := by
  have hfits : (makeHeader command payload.length packetRequest false).Fits max :=
    (makeHeader_fits hlen command _ _).mpr ⟨hmax, hcommand⟩
  have hact := act_packet cmds max hp (makeHeader_cb hlen command packetRequest false).symm []
  rw [append_nil, receive_message rfl, dispatch_notify false payload rfl rfl] at hact
  refine ⟨p.setHead (makeHeader command payload.length packetRequest false), payload, _,
    ⟨rfl, rfl⟩, .take ((act_toBytes hp rfl).trans (if_pos hfits)) ⟨rfl, rfl⟩ ?_, hact, hp, rfl⟩
  exact .here

theorem finalizeNotify_stops (hcommand : ¬ payload.length ≤ getMaxBytes command) :
    Stops cmds max p (finalizeNotify command payload) := by
  have hfits : ¬ (makeHeader command payload.length packetRequest false).Fits max :=
    fun h => hcommand ((makeHeader_fits hlen command _ _).mp h).2
  exact ⟨_, .halt ((act_toBytes hp rfl).trans (if_neg hfits))⟩

end

variable {message : Blob}

/-- What the last fragment comes to. -/
theorem Ready.act (cmds : Commands ε) (max : Nat) {p₀ : Parser ε} {pad : Blob}
    (h : Ready p₀ (finalizeNotify command message ++ pad) p body) (hbody : body.length = n)
    (hn : n < 2 ^ 64) (hmessage : message.length < 2 ^ 64) :
    (machine cmds max).act (p.setHead (makeHeader 0 n packetEnd false)) body =
      if message.length ≤ max ∧ message.length ≤ getMaxBytes command then
        .take
          (Parser.deliver
            { p.withHead (makeHeader 0 n packetEnd false) with
              fragmentBuffer := []
              currentHead := makeHeader command message.length packetRequest false }
            .notify (message ++ pad) true (cmds.notify command (message ++ pad) p.env))
          body.length
      else
        .halt (.size,
          { p.withHead (makeHeader 0 n packetEnd false) with
            fragmentBuffer := []
            currentHead := makeHeader command message.length packetRequest false }) := by
  have hwhole : finalizeNotify command message ++ pad =
      (makeHeader command message.length packetRequest false).toBytes ++ (message ++ pad) := by
    rw [finalizeNotify, append_assoc]
  have hlen : headSize ≤ (finalizeNotify command message ++ pad).length := by
    rw [length_append, finalizeNotify_length]
    omega
  have hact := act_packet cmds max h.state
    (hbody.trans (makeHeader_cb hn 0 packetEnd false).symm) []
  rw [append_nil, receive_end rfl h.whole hlen, hwhole, ofBytes_toBytes,
    drop_left' (toBytes_length _)] at hact
  rw [hact]
  by_cases hfits : message.length ≤ max ∧ message.length ≤ getMaxBytes command
  · rw [if_pos ((makeHeader_fits hmessage command _ _).mpr hfits), if_pos hfits,
      dispatch_notify true (message ++ pad) rfl rfl]
    rfl
  · rw [if_neg (mt (makeHeader_fits hmessage command _ _).mp hfits), if_neg hfits]

/-- The fragments have one size, and room for what they hold. -/
theorem fragmentLoop_length (hnoise : headSize < noiseSize) (hpayload : payload ≠ [])
    (hfuel : payload.length ≤ fuel) (copySize : Nat) :
    noiseSize ∣ (fragmentLoop noiseSize fuel payload copySize).length ∧
      payload.length ≤ (fragmentLoop noiseSize fuel payload copySize).length := by
  induction fuel generalizing payload copySize with
  | zero => exact absurd (length_eq_zero_iff.mp (Nat.le_zero.mp hfuel)) hpayload
  | succ fuel ih =>
    by_cases hlast : payload.length ≤ noiseSize - headSize
    · rw [fragmentLoop_last hpayload hlast]
      simp only [length_append, toBytes_length, length_replicate]
      exact ⟨dvd_of_eq (by omega), by omega⟩
    · have hnext : noiseSize - headSize < payload.length := Nat.lt_of_not_le hlast
      rcases cut_at hnext with ⟨hlen, hrest, hdrop⟩
      rw [fragmentLoop_next hnext, length_append, length_append, toBytes_length, hlen,
        ← Nat.add_assoc]
      rcases ih hrest (by omega) (noiseSize - headSize) with ⟨hdvd, hle⟩
      exact ⟨Nat.dvd_add (dvd_of_eq (by omega)) hdvd, by omega⟩

variable (hnoise : headSize * 2 ≤ noiseSize)
include hnoise

/-- The output of `make_fragmented_notify`, for a message that is cut. -/
theorem makeFragmentedNotify_long (hlong : noiseSize < headSize + message.length) :
    makeFragmentedNotify noiseSize command message =
      some ((makeHeader 0 (noiseSize - headSize) packetBegin false).toBytes ++
        ((finalizeNotify command message).take (noiseSize - headSize) ++
          fragmentLoop noiseSize (finalizeNotify command message).length
            ((finalizeNotify command message).drop (noiseSize - headSize))
            ((finalizeNotify command message).take (noiseSize - headSize)).length)) := by
  rw [makeFragmentedNotify, if_neg (Nat.not_lt_of_le hnoise), if_neg (Nat.not_le_of_lt hlong)]

theorem makeFragmentedNotify_short (hshort : headSize + message.length ≤ noiseSize) :
    makeFragmentedNotify noiseSize command message = some (finalizeNotify command
        (message ++ replicate (noiseSize - (headSize + message.length)) 0)) := by
  rw [makeFragmentedNotify, if_neg (Nat.not_lt_of_le hnoise), if_pos hshort]

theorem makeFragmentedNotify_some (command : UInt32) (message : Blob) :
    ∃ out, makeFragmentedNotify noiseSize command message = some out := by
  rcases le_or_gt (headSize + message.length) noiseSize with hshort | hlong
  · exact ⟨_, makeFragmentedNotify_short hnoise hshort⟩
  · exact ⟨_, makeFragmentedNotify_long hnoise hlong⟩

/-- The largest size that a header tells for the command. -/
def announced (noiseSize : Nat) (message : Blob) : Nat :=
  Max.max (noiseSize - headSize) message.length

/-- The output delivers the message, or the parser stops at its size. -/
theorem makeFragmentedNotify_delivers {out : Blob}
    (hout : makeFragmentedNotify noiseSize command message = some out)
    (hmemory : out.length < 2 ^ 64) :
    noiseSize ∣ out.length ∧ ∃ k reassembled, ∀ (cmds : Commands ε) (max : Nat) (p : Parser ε),
      p.state = .head → out.length ≤ max → if announced noiseSize message ≤ getMaxBytes command then
          Delivers cmds max p out
            ⟨.notify, command, message ++ replicate k 0, reassembled⟩
        else Stops cmds max p out := by
  by_cases hshort : headSize + message.length ≤ noiseSize
  · rw [makeFragmentedNotify_short hnoise hshort] at hout
    cases hout
    have hannounced : announced noiseSize message = (message ++
        replicate (noiseSize - (headSize + message.length)) (0 : UInt8)).length := by
      rw [announced, length_append, length_replicate]
      omega
    rw [finalizeNotify_length] at hmemory ⊢
    rw [hannounced]
    refine ⟨dvd_of_eq ?_, noiseSize - (headSize + message.length), false, ?_⟩
    · rw [length_append, length_replicate]
      omega
    · intro cmds max p hp hmax
      split_ifs with hcommand
      · exact finalizeNotify_delivers (by omega) hp (by omega) hcommand
      · exact finalizeNotify_stops (by omega) hp hcommand
  · -- The whole notification is cut up.
    have hlong : noiseSize < headSize + message.length := Nat.lt_of_not_le hshort
    have hpos : headSize < noiseSize := lt_of_lt_of_le (by decide) hnoise
    have hannounced : announced noiseSize message = message.length := max_eq_right (by omega)
    rw [makeFragmentedNotify_long hnoise hlong] at hout
    cases hout
    have hpayload := finalizeNotify_length command message
    generalize hwhole : finalizeNotify command message = payload at hmemory hpayload ⊢
    rcases cut_at (show noiseSize - headSize < payload.length by omega) with ⟨hfirst, hrest, hdrop⟩
    have hfuel : (payload.drop (noiseSize - headSize)).length ≤ payload.length := by omega
    rcases fragmentLoop_length hpos hrest hfuel (payload.take (noiseSize - headSize)).length with
      ⟨hdvd, hle⟩
    rw [length_append, length_append, toBytes_length, hfirst] at hmemory ⊢
    rcases fragmentLoop_leads (ε := ε) hpos (by omega) hrest hfuel
      (payload.take (noiseSize - headSize)).length with ⟨k, hk⟩
    rw [hfirst] at hk hdvd hle
    refine ⟨?_, k, true, ?_⟩
    · rw [← Nat.add_assoc]
      exact Nat.dvd_add (dvd_of_eq (by omega)) hdvd
    · intro cmds max p hp hmax
      rcases hk cmds max { p.withHead (makeHeader 0 (noiseSize - headSize) packetBegin false) with
        fragmentBuffer := payload.take (noiseSize - headSize) } hp (by omega) with
        ⟨q, body, hready, hbody, hleads⟩
      have hready' : Ready p (finalizeNotify command message ++ replicate k 0) q body := by
        refine ⟨hready.state, hready.quiet, ?_⟩
        rw [hready.whole, hwhole, ← append_assoc, take_append_drop]
      have hlead := leads_fragment hp (by omega) (by omega) hfirst (receive_begin rfl)
        ⟨rfl, rfl⟩ hleads
      have hact := hready'.act cmds max hbody (by omega) (by omega)
      split_ifs with hcommand
      · rw [if_pos ⟨by omega, by omega⟩] at hact
        refine ⟨q.setHead (makeHeader 0 (noiseSize - headSize) packetEnd false), body, _,
          hready.quiet, hlead, hact, hready.state, ?_⟩
        exact congrArg (· ++ [⟨.notify, command, message ++ replicate k 0, true⟩])
          hready.quiet.2
      · rw [if_neg (by omega)] at hact
        exact ⟨_, hlead.runs (.halt hact)⟩

omit hnoise

/-! ## In any chunks -/

theorem runs_nil {o : Incremental.Outcome UInt8 (Parser ε) (Failure × Parser ε)}
    (hp : p.state = .head) (h : (machine cmds max).Runs p [] o) : o = .waiting p [] :=
  h.unique (.wait (act_nil hp))

/-- After the last act the machine waits. -/
theorem runs_final (hfinal : (machine cmds max).act q body = .take e body.length)
    (he : e.state = .head) : (machine cmds max).Runs q body (.waiting e []) := by
  refine .take hfinal ?_
  rw [drop_length]
  exact .wait (act_nil he)

variable {chunks : List Blob}

/-- Calls without bytes do nothing, also when they are refused. -/
theorem feed_idle (hstate : c.parser.state = .head) (hempty : c.cacheInBuffer.contents = [])
    (hchunks : chunks.flatten = []) : (feed cmds chunks c).parser = c.parser := by
  induction chunks generalizing c with
  | nil => rfl
  | cons chunk chunks ih =>
    rw [flatten_cons, append_eq_nil_iff] at hchunks
    rw [feed_cons]
    have hcases := handleRecv_cases cmds chunk c
    rcases hcases with ⟨-, hclosing | hsize⟩ | ⟨-, hruns⟩
    · rw [hclosing]
      rfl
    · rw [hsize]
      rfl
    · rw [hempty, hchunks.1] at hruns
      rcases Outcome.of_view_waiting (runs_nil hstate hruns) with ⟨c', hrecv, hparser, hcontents⟩
      rw [hchunks.1, hrecv]
      exact (ih (hparser ▸ hstate) hcontents hchunks.2).trans hparser

/-- A connection that can hold a stream takes it in any chunks. -/
theorem feed_ends {p₀ : Parser ε} (hfinal : (machine cmds max).act q body = .take e body.length)
    (he : e.state = .head) (hopen : cmds.closeCalled p₀.env = false)
    (hmax : cmds.maxPacketSize p₀.env = max) (hq : Quiet p₀ q) (hquiet : Quiet p₀ c.parser)
    (hwait : (machine cmds max).act c.parser c.cacheInBuffer.contents = .wait)
    (hleads : (machine cmds max).Leads (Quiet p₀) c.parser
      (c.cacheInBuffer.contents ++ chunks.flatten) q body)
    (hholds : c.parser.fragmentBuffer.length +
      (c.cacheInBuffer.contents.length + chunks.flatten.length) ≤ max)
    (hroom : c.cacheInBuffer.storage.length + chunks.flatten.length < 2 ^ 64 - 1) :
    (feed cmds chunks c).parser = e := by
  have hsteady := machine_steady cmds max
  have hend := runs_final hfinal he
  induction chunks generalizing c with
  | nil =>
    -- The machine waits, so it has not come to the point.
    rw [flatten_nil, append_nil] at hleads
    cases hleads with
    | here =>
      rw [hwait] at hfinal
      cases hfinal
    | take hact _ _ =>
      rw [hwait] at hact
      cases hact
  | cons chunk chunks ih =>
    rw [flatten_cons] at hleads hholds hroom
    rw [← append_assoc] at hleads
    rw [length_append] at hholds hroom
    have hlimit : c.maxPacketSize cmds = max := by
      rw [Connection.maxPacketSize, hquiet.1, hmax]
    have htakes : c.Takes (c.maxPacketSize cmds) chunk.length := by
      rw [hlimit, Connection.Takes, Buffer.size_eq]
      omega
    rcases handleRecv_taken cmds ⟨hquiet.1 ▸ hopen, htakes, by omega⟩ with ⟨hruns, hstorage⟩
    rw [hlimit] at hruns
    rw [feed_cons]
    cases hrecv : handleRecv cmds chunk c with
    | failed f p =>
      -- The whole stream would stop here as well.
      rw [hrecv] at hruns
      have hstops := Incremental.Machine.Runs.halted_append hsteady hruns chunks.flatten
      cases hstops.unique (hleads.runs hend)
    | returned c' =>
      rw [hrecv] at hruns
      have hstorage := hstorage c' hrecv
      have hbytes := runs_bytes hruns
      rw [length_append] at hbytes
      have hgo (hquiet' : Quiet p₀ c'.parser)
          (hleads' : (machine cmds max).Leads (Quiet p₀) c'.parser
            (c'.cacheInBuffer.contents ++ chunks.flatten) q body) :
          (feed cmds chunks c').parser = e :=
        ih hquiet' (Incremental.Machine.Runs.waits hruns) hleads' (by omega) (by omega)
      rcases hleads.front hsteady hquiet hruns with
        ⟨hquiet', hleads'⟩ | ⟨front, hfront, hlast⟩
      · exact hgo hquiet' hleads'
      · cases hlast with
        | wait _ =>
          refine hgo hq ?_
          rw [← hfront]
          exact .here
        | take hact hlast =>
          -- The last act needs the whole body.
          have hlong := hsteady.take_append chunks.flatten hact
          rw [← hfront, hfinal] at hlong
          cases hlong
          have hle := hsteady.take_le hact
          rw [hfront, length_append] at hle
          have hdone : chunks.flatten = [] := length_eq_zero_iff.mp (by omega)
          rw [hfront, hdone, append_nil, drop_length] at hlast
          injection runs_nil he hlast with hparser hcontents
          exact (feed_idle (hparser ▸ he) hcontents hdone).trans hparser

/-- Without a limit the machine has delivered when no call was refused. -/
theorem feed_accepted {d : Delivery} {fits : Prop} [Decidable fits]
    (hstate : c.parser.state = .head) (hempty : c.cacheInBuffer.contents = [])
    (haccepted : (feed cmds chunks c).Accepted)
    (h : if fits then Delivers cmds unlimited c.parser chunks.flatten d
      else Stops cmds unlimited c.parser chunks.flatten) :
    (feed cmds chunks c).parser.delivered = c.parser.delivered ++ [d] := by
  have hruns := (feed_feeds cmds chunks c haccepted).runs (machine_steady cmds unlimited)
    (hempty ▸ act_nil hstate)
  rw [hempty, nil_append] at hruns
  split_ifs at h
  · rcases h with ⟨q, body, e, -, hleads, hfinal, he, hdelivered⟩
    have hend := hleads.runs (runs_final hfinal he)
    rcases Outcome.of_view_waiting (hruns.unique hend) with ⟨c', hfeed, hparser, -⟩
    rw [hfeed, Outcome.parser, hparser, hdelivered]
  · rcases h with ⟨p', hstops⟩
    rw [Outcome.of_view_halted (hruns.unique hstops)] at haccepted
    exact absurd rfl haccepted.1

/-- The connection is open and can hold a stream together with what it keeps. -/
structure Connection.Holds (c : Connection ε) (cmds : Commands ε) (out : Blob) : Prop where
  opened : cmds.closeCalled c.parser.env = false
  packet : c.parser.fragmentBuffer.length + out.length ≤ c.maxPacketSize cmds
  storage : c.cacheInBuffer.storage.length + out.length < 2 ^ 64 - 1

/-- Between packets the cuts of a stream do not show where no call is refused for a size or since
    the connection is being closed. The output of `make_fragmented_notify` is made of packets of one
    size, and in any chunks it delivers one notification, with the message and zeros, where no call
    is refused or where the sizes are within the limits. -/
theorem cuts_and_fragments (cmds : Commands ε) (c : Connection ε) (hstate : c.parser.state = .head)
    (hempty : c.cacheInBuffer.contents = []) :
    (∀ as bs : List Blob, as.flatten = bs.flatten → (feed cmds as c).Accepted →
      (feed cmds bs c).Accepted → (feed cmds as c).view = (feed cmds bs c).view) ∧
    ∀ (noiseSize : Nat) (command : UInt32) (message : Blob), headSize * 2 ≤ noiseSize →
      ∃ out, makeFragmentedNotify noiseSize command message = some out ∧
        (out.length < 2 ^ 64 → noiseSize ∣ out.length ∧ ∃ k reassembled, ∀ chunks : List Blob,
          chunks.flatten = out → (feed cmds chunks c).Accepted ∨
            c.Holds cmds out ∧ announced noiseSize message ≤ getMaxBytes command →
          (feed cmds chunks c).parser.delivered = c.parser.delivered ++
            [⟨.notify, command, message ++ replicate k 0, reassembled⟩]) := by
  constructor
  · intro as bs hcuts ha hb
    exact feed_unique hstate hempty hcuts ha hb
  · intro noiseSize command message hnoise
    rcases makeFragmentedNotify_some hnoise command message with ⟨out, hout⟩
    refine ⟨out, hout, fun hmemory => ?_⟩
    rcases makeFragmentedNotify_delivers (ε := ε) hnoise hout hmemory with
      ⟨hdvd, k, reassembled, hk⟩
    refine ⟨hdvd, k, reassembled, ?_⟩
    rintro chunks hchunks (haccepted | ⟨hholds, hcommand⟩)
    · exact feed_accepted hstate hempty haccepted (hchunks ▸ hk cmds unlimited c.parser hstate
        hmemory.le)
    · have hmax : out.length ≤ c.maxPacketSize cmds :=
        (Nat.le_add_left _ _).trans hholds.packet
      have hdelivers := hk cmds (c.maxPacketSize cmds) c.parser hstate hmax
      rw [if_pos hcommand] at hdelivers
      rcases hdelivers with ⟨q, body, e, hq, hleads, hfinal, he, hdelivered⟩
      have hend : (feed cmds chunks c).parser = e := by
        refine feed_ends hfinal he hholds.opened rfl hq ⟨rfl, rfl⟩
          (hempty ▸ act_nil hstate) ?_ ?_ ?_
        · rw [hempty, hchunks]
          exact hleads
        · rw [hempty, hchunks]
          exact (Nat.zero_add _).symm ▸ hholds.packet
        · rw [hchunks]
          exact hholds.storage
      rw [hend, hdelivered]

end Fragments

/-- Surroundings that never change and take every message. -/
def Commands.still (max : Nat) : Commands Unit where
  closeCalled := fun _ => false
  maxPacketSize := fun _ => max
  raiseMaxPacketSize := fun _ => ()
  handshakeComplete := fun _ => false
  invoke := fun _ _ _ => ()
  sendResponse := fun _ _ => ((), true)
  notify := fun _ _ _ => ()
  takeResponder := fun _ => none
  handle := fun _ _ _ => ()

/-- A message of 40 bytes in three packets of 66. -/
theorem cuts_and_fragments_three : ∃ out,
    makeFragmentedNotify 66 2002 (replicate 40 7) = some out ∧ out.length = 198 ∧
      ∃ k reassembled, ∀ chunks : List Blob, chunks.flatten = out →
        (feed (.still (256 * 1024)) chunks (.new ())).parser.delivered =
          [⟨.notify, 2002, replicate 40 7 ++ replicate k 0, reassembled⟩] := by
  rcases (cuts_and_fragments (.still (256 * 1024)) (.new ()) rfl rfl).2 66 2002
    (replicate 40 7) (by decide) with ⟨out, hout, hdelivers⟩
  have hlen : (makeFragmentedNotify 66 2002 (replicate 40 7)).map length = some 198 := by
    decide +kernel
  rw [hout, Option.map_some, Option.some_inj] at hlen
  rcases hdelivers (by rw [hlen]; decide) with ⟨-, k, reassembled, hk⟩
  refine ⟨out, hout, hlen, k, reassembled, fun chunks hchunks => hk chunks hchunks (.inr ⟨?_, ?_⟩)⟩
  · refine ⟨rfl, ?_, ?_⟩
    · rw [hlen]
      decide
    · rw [hlen]
      decide
  · decide

/-- Surroundings that close the connection at the first notification. -/
def Commands.closing : Commands Bool where
  closeCalled := id
  maxPacketSize := fun _ => 256 * 1024
  raiseMaxPacketSize := id
  handshakeComplete := fun _ => false
  invoke := fun _ _ closed => closed
  sendResponse := fun _ closed => (closed, true)
  notify := fun _ _ _ => true
  takeResponder := fun _ => none
  handle := fun _ _ closed => closed

/-- Two notifications in one chunk are both delivered, while the second of two chunks is refused. No
    size is above a limit. -/
theorem second_chunk_refused :
    (feed .closing [finalizeNotify 2002 [] ++ finalizeNotify 2002 []] (.new false)).failure = none ∧
    (feed .closing [finalizeNotify 2002 [], finalizeNotify 2002 []] (.new false)).failure =
      some .closing ∧
    (feed .closing [finalizeNotify 2002 [] ++ finalizeNotify 2002 []]
      (.new false)).parser.delivered = [⟨.notify, 2002, [], false⟩, ⟨.notify, 2002, [], false⟩] ∧
    (feed .closing [finalizeNotify 2002 [], finalizeNotify 2002 []]
      (.new false)).parser.delivered = [⟨.notify, 2002, [], false⟩] := by
  decide +kernel

end Levin

end CocaineNode
