import CocaineNode.Theory.LevinFragments

/-!
# How Much a Peer Can Send

What the parser keeps for later, and what it hands over, is bounded whatever a
peer sends.

All that is kept fits into the maximum packet size: a call checks it together
with what has arrived before it takes anything, and no act adds to it. So a
payload is never larger than the maximum packet size either, since it is a part
of what was kept.

The limit for a command is another matter. It is checked against the size in the
header. For a packet that is the size of its body. For a message that was put
together from fragments the payload is what the fragments hold, and nothing ties
that to the size in the header inside of them.

## Theorems

* `Levin.handleRecv_ended`: A call keeps the bounds.
* `Levin.deliveries_bounded_iff`: Which payloads are within the limits.
-/

namespace CocaineNode

open List

namespace Levin

open Incremental (Act)

section Bounds

variable {ε : Type} {cmds : Commands ε} {max : Nat} {c c' : Connection ε} {p p' p'' : Parser ε}
  {b : Blob} {f : Failure} {long long' : Prop}

/-- The payload is within the maximum packet size, and if it came in one packet also within the
    limit of its command. -/
def Delivery.Within (d : Delivery) (max : Nat) : Prop :=
  d.payload.length ≤ max ∧ (d.reassembled = false → d.payload.length ≤ getMaxBytes d.command)

/-- Before a turn of the loop: the packet is there, and it ends a message of fragments that is
    handed over and longer than its command allows. -/
def Overlong (cmds : Commands ε) (max : Nat) (p : Parser ε) (b : Blob) : Prop :=
  p.state = .body ∧ p.currentHead.cb.toNat ≤ b.length ∧
    EndsOverlong cmds max (b.take p.currentHead.cb.toNat) p

/-- What is delivered on the way, and when some of it is longer than its command allows. -/
def Adds (max : Nat) (p p' : Parser ε) (long : Prop) : Prop :=
  ∃ new, p'.delivered = p.delivered ++ new ∧ (∀ d ∈ new, d.Within max) ∧
    ((∃ d ∈ new, d.Exceeds) ↔ long)

theorem Adds.nothing (h : p'.delivered = p.delivered) (hlong : ¬ long) : Adds max p p' long :=
  ⟨[], h.trans (append_nil _).symm, nofun, by simp [hlong]⟩

theorem Adds.trans (h : Adds max p p' long) (h' : Adds max p' p'' long') :
    Adds max p p'' (long ∨ long') := by
  rcases h with ⟨new, hnew, hwithin, hlong⟩
  rcases h' with ⟨new', hnew', hwithin', hlong'⟩
  refine ⟨new ++ new', by rw [hnew', hnew, append_assoc],
    forall_mem_append.mpr ⟨hwithin, hwithin'⟩, ?_⟩
  rw [← hlong, ← hlong']
  simp only [mem_append, or_and_right, exists_or]

/-- A header that has been read is within the limit of its command. -/
def Parser.Sound (p : Parser ε) : Prop :=
  p.state = .body → p.currentHead.cb.toNat ≤ getMaxBytes p.currentHead.command

/-- The bounds during a call: what is kept, and the size in a header that has been read. -/
structure Parser.Kept (p : Parser ε) (max : Nat) (b : Blob) : Prop where
  bytes : p.fragmentBuffer.length + b.length ≤ max
  sound : p.Sound

/-- The payload of a packet is a part of what was kept. -/
theorem Packet.adds
    (h : Packet cmds max (b.take p.currentHead.cb.toNat) { p with state := .head } p')
    (hstate : p.state = .body) (hle : p.currentHead.cb.toNat ≤ b.length) (hp : p.Kept max b) :
    Adds max p p' (Overlong cmds max p b) := by
  have hbytes := hp.bytes
  have htake : (b.take p.currentHead.cb.toNat).length = p.currentHead.cb.toNat :=
    length_take_of_le hle
  rcases h.delivered with ⟨new, hnew, hparts, hlong⟩
  refine ⟨new, hnew, fun d hd => ?_, hlong.trans ⟨fun h => ⟨hstate, hle, h⟩, fun h => h.2.2⟩⟩
  rcases hparts d hd with ⟨hlen, hpacket⟩
  rw [htake] at hlen
  refine ⟨hlen.trans (by simp only; omega), fun hwhole => ?_⟩
  rcases hpacket hwhole with ⟨hpayload, hcommand⟩
  rw [hpayload, hcommand, htake]
  exact hp.sound hstate

theorem act_kept {n : Nat} (h : (machine cmds max).act p b = .take p' n) (hp : p.Kept max b) :
    p'.Kept max (b.drop n) ∧ Adds max p p' (Overlong cmds max p b) := by
  have hbytes := (act_bytes h).trans hp.bytes
  have hdid := machine_did cmds max p b
  rw [h] at hdid
  cases hdid with
  | head hstate _ hfits =>
    refine ⟨⟨hbytes, fun _ => hfits.trans (min_le_right _ _)⟩, .nothing rfl fun hlong => ?_⟩
    cases hstate.symm.trans hlong.1
  | body hstate hle hpacket =>
    refine ⟨⟨hbytes, fun hbody => ?_⟩, hpacket.adds hstate hle hp⟩
    rw [hpacket.state] at hbody
    cases hbody

theorem halt_adds (h : (machine cmds max).act p b = .halt (f, p')) (hp : p.Kept max b) :
    f ≠ .spent ∧ Adds max p p' (Overlong cmds max p b) := by
  have hdid := machine_did cmds max p b
  rw [h] at hdid
  cases hdid with
  | quiet hspent hstate hsame =>
    exact ⟨hspent, .nothing hsame fun hlong => nomatch hstate.symm.trans hlong.1⟩
  | halt hspent hstate hle hpacket => exact ⟨hspent, hpacket.adds hstate hle hp⟩

theorem wait_not_overlong (h : (machine cmds max).act p b = .wait) : ¬ Overlong cmds max p b := by
  have hdid := machine_did cmds max p b
  rw [h] at hdid
  cases hdid with
  | wait hshort => exact fun hlong => Nat.not_le.mpr (hshort hlong.1) hlong.2.1

/-- What holds at the end of a call. -/
inductive Ended (max : Nat) (p : Parser ε) (long : Prop) :
    Incremental.Outcome UInt8 (Parser ε) (Failure × Parser ε) → Prop
  | waiting {p' : Parser ε} {b : Blob} : p'.Kept max b → Adds max p p' long →
      Ended max p long (.waiting p' b)
  | halted {f : Failure} {p' : Parser ε} : f ≠ .spent → Adds max p p' long →
      Ended max p long (.halted (f, p'))

/-- Some delivered payload is too long exactly if the call comes to a turn that hands it over. -/
theorem runs_ended {o : Incremental.Outcome UInt8 (Parser ε) (Failure × Parser ε)}
    (h : (machine cmds max).Runs p b o) (hp : p.Kept max b) :
    Ended max p ((machine cmds max).Meets (Overlong cmds max) p b) o := by
  induction h with
  | wait hact =>
    rw [Incremental.Machine.meets_stop_iff (by simp [hact])]
    exact .waiting hp (.nothing rfl (wait_not_overlong hact))
  | @halt _ _ h hact =>
    rcases h with ⟨f, p'⟩
    rcases halt_adds hact hp with ⟨hspent, hadds⟩
    rw [Incremental.Machine.meets_stop_iff (by simp [hact])]
    exact .halted hspent hadds
  | take hact _ ih =>
    rcases act_kept hact hp with ⟨hkept, hadds⟩
    rw [Incremental.Machine.meets_take_iff hact]
    cases ih hkept with
    | waiting hkept' hadds' => exact .waiting hkept' (hadds.trans hadds')
    | halted hspent hadds' => exact .halted hspent (hadds.trans hadds')

/-- A call comes to a turn that hands over a payload which is too long for its command. -/
def Connection.MeetsOverlong (cmds : Commands ε) (chunk : Blob) (c : Connection ε) : Prop :=
  c.Admits cmds chunk ∧ (machine cmds (c.maxPacketSize cmds)).Meets
    (Overlong cmds (c.maxPacketSize cmds)) c.parser (c.cacheInBuffer.contents ++ chunk)

/-- A call keeps the bounds. -/
theorem handleRecv_ended (cmds : Commands ε) (chunk : Blob) (hc : c.parser.Sound) :
    Ended (c.maxPacketSize cmds) c.parser (c.MeetsOverlong cmds chunk)
      (handleRecv cmds chunk c).view := by
  rcases handleRecv_cases cmds chunk c with ⟨hadmits, hclosing | hsize⟩ | ⟨hadmits, hruns⟩
  · rw [hclosing]
    exact .halted nofun (.nothing rfl fun h => hadmits h.1)
  · rw [hsize]
    exact .halted nofun (.nothing rfl fun h => hadmits h.1)
  · rw [Connection.MeetsOverlong, and_iff_right hadmits]
    refine runs_ended hruns ⟨?_, hc⟩
    rcases hadmits.takes with ⟨hcache, hfragment, hchunk⟩
    rw [Buffer.size_eq] at hcache hfragment hchunk
    rw [length_append]
    omega

/-- Over any run the headers that were read stay within the limits. -/
theorem run_sound (cmds : Commands ε) (events : List (Event ε)) (hc : c.parser.Sound)
    (h : run cmds events c = .returned c') : c'.parser.Sound := by
  induction events generalizing c with
  | nil =>
    cases h
    exact hc
  | cons event events ih =>
    cases event with
    | other change =>
      rw [run] at h
      exact ih (c := ⟨{ c.parser with env := change c.parser.env }, c.cacheInBuffer⟩) hc h
    | recv chunk =>
      rw [run] at h
      have hended := handleRecv_ended cmds chunk hc
      cases hrecv : handleRecv cmds chunk c with
      | failed f p =>
        rw [hrecv] at h
        cases h
      | returned c₁ =>
        rw [hrecv] at h hended
        cases hended with
        | waiting hkept _ => exact ih hkept.sound h

/-- All that is added is within the limits exactly if nothing exceeds the limit of its command. -/
theorem Adds.bounded_iff (h : Adds max p p' long) : ∃ new, p'.delivered = p.delivered ++ new ∧
    (∀ d ∈ new, d.Within max) ∧
      ((∀ d ∈ new, d.payload.length ≤ min max (getMaxBytes d.command)) ↔ ¬ long) := by
  rcases h with ⟨new, hnew, hwithin, hlong⟩
  refine ⟨new, hnew, hwithin, ?_⟩
  rw [← hlong]
  push Not
  refine forall₂_congr fun d hd => ?_
  rcases hwithin d hd with ⟨hmax, hpacket⟩
  rw [le_min_iff, Delivery.Exceeds]
  constructor
  · exact fun h hexceeds => Nat.not_lt.mpr h.2 hexceeds.2
  · intro h
    refine ⟨hmax, ?_⟩
    cases hreassembled : d.reassembled with
    | true => exact Nat.not_lt.mp fun hlong => h ⟨hreassembled, hlong⟩
    | false => exact hpacket hreassembled

/-- Whatever has arrived and however the surroundings have changed, a call delivers payloads within
    the maximum packet size, in one packet also within the limit of their command. All are within
    that limit exactly if no turn of the call ends a message of fragments whose buffer holds more
    behind the header than the command in the header allows. What is kept after the call is within
    the maximum packet size. -/
theorem deliveries_bounded_iff (cmds : Commands ε) (env : ε) (events : List (Event ε))
    (c : Connection ε) (hrun : run cmds events (.new env) = .returned c) (chunk : Blob) :
    (handleRecv cmds chunk c).failure ≠ some .spent ∧
      (∃ new, (handleRecv cmds chunk c).parser.delivered = c.parser.delivered ++ new ∧
        (∀ d ∈ new, d.Within (c.maxPacketSize cmds)) ∧
        ((∀ d ∈ new, d.payload.length ≤ min (c.maxPacketSize cmds) (getMaxBytes d.command)) ↔
          ¬ c.MeetsOverlong cmds chunk)) ∧
      ∀ c', handleRecv cmds chunk c = .returned c' →
        c'.cacheInBuffer.size + c'.parser.fragmentBuffer.length ≤ c.maxPacketSize cmds := by
  have hended := handleRecv_ended cmds chunk (run_sound (c := .new env) cmds events nofun hrun)
  cases hrecv : handleRecv cmds chunk c with
  | failed f p =>
    rw [hrecv] at hended
    cases hended with
    | halted hspent hadds =>
      exact ⟨fun h => hspent (Option.some_inj.mp h), hadds.bounded_iff, nofun⟩
  | returned c₁ =>
    rw [hrecv] at hended
    cases hended with
    | waiting hkept hadds =>
      refine ⟨nofun, hadds.bounded_iff, ?_⟩
      intro c' hc'
      cases hc'
      rw [Buffer.size_eq, Nat.add_comm]
      exact hkept.bytes

end Bounds

/-- One fragment that holds a ping without a size, and 4097 bytes behind its header. -/
def longPing : Blob :=
  (makeHeader 0 (headSize + 4097) packetEnd false).toBytes ++
    (finalizeNotify 1003 [] ++ replicate 4097 0)

theorem longPing_length : longPing.length = headSize + (headSize + 4097) := by
  rw [longPing, length_append, toBytes_length, length_append, finalizeNotify_length,
    length_replicate]
  rfl

/-- A notification, and the first fragment of a ping. -/
def pingBegun : List (Event Unit) :=
  [.recv (finalizeNotify 2002 [1, 2, 3]),
    .recv ((makeHeader 0 (headSize + 1) packetBegin false).toBytes ++ finalizeNotify 1003 [7])]

/-- The last fragment of the ping. -/
def pingEnd : Blob :=
  (makeHeader 0 2 packetEnd false).toBytes ++ [8, 9]

/-- A ping that comes in two calls is within its limit. -/
theorem deliveries_bounded_iff_ping : ∃ c, run (.still 1024) pingBegun (.new ()) = .returned c ∧
    c.parser.fragmentBuffer.length = headSize + 1 ∧ ¬ c.MeetsOverlong (.still 1024) pingEnd := by
  have hbegun : (match run (.still 1024) pingBegun (.new ()) with
      | .returned c => some (c.parser.fragmentBuffer.length, c.parser.delivered,
        (handleRecv (.still 1024) pingEnd c).parser.delivered)
      | .failed _ _ => none) = some (headSize + 1, [⟨.notify, 2002, [1, 2, 3], false⟩],
        [⟨.notify, 2002, [1, 2, 3], false⟩, ⟨.notify, 1003, [7, 8, 9], true⟩]) := by
    decide +kernel
  cases hrun : run (.still 1024) pingBegun (.new ()) with
  | failed f p =>
    rw [hrun] at hbegun
    cases hbegun
  | returned c =>
    rw [hrun] at hbegun
    simp only [Option.some.injEq, Prod.mk.injEq] at hbegun
    rcases hbegun with ⟨hfragments, hbefore, hafter⟩
    rcases (deliveries_bounded_iff (.still 1024) () pingBegun c hrun pingEnd).2.1 with
      ⟨new, hnew, -, hiff⟩
    rw [hbefore, hafter] at hnew
    cases hnew
    have hlimit : 3 ≤ min 1024 4096 := by decide
    exact ⟨c, rfl, hfragments, hiff.mp (forall_mem_singleton.mpr hlimit)⟩

/-- The payload of a reassembled message can be longer than its command allows. -/
theorem long_ping_delivered :
    ∃ d ∈ (feed (.still (256 * 1024)) [longPing] (.new ())).parser.delivered,
      d.kind = .notify ∧ d.command = 1003 ∧ getMaxBytes d.command < d.payload.length := by
  have hbody : (finalizeNotify 1003 [] ++ replicate 4097 0).length = headSize + 4097 := by
    rw [length_append, finalizeNotify_length, length_replicate]
    rfl
  have hready : Ready (Connection.new ()).parser (finalizeNotify 1003 [] ++ replicate 4097 0)
      (Connection.new ()).parser (finalizeNotify 1003 [] ++ replicate 4097 0) :=
    ⟨rfl, ⟨rfl, rfl⟩, rfl⟩
  have hact := hready.act (.still (256 * 1024)) (256 * 1024) hbody (by decide) (by decide)
  rw [if_pos ⟨by decide, by decide⟩] at hact
  generalize he : Parser.deliver _ _ _ _ _ = e at hact
  have hlen : [longPing].flatten.length = headSize + (headSize + 4097) := by
    rw [flatten_singleton, longPing_length]
  have hend : (feed (.still (256 * 1024)) [longPing] (.new ())).parser = e := by
    refine feed_ends hact (he ▸ rfl) rfl rfl ⟨rfl, rfl⟩ ⟨rfl, rfl⟩ (act_nil rfl) ?_ ?_ ?_
    · have hnew : (Connection.new ()).cacheInBuffer.contents = [] := rfl
      rw [flatten_singleton, hnew, nil_append, longPing]
      refine .take (act_fragment rfl (by decide) (by decide) _) ⟨rfl, rfl⟩ ?_
      rw [drop_left' (toBytes_length _)]
      exact .here
    · rw [hlen]
      decide
    · rw [hlen]
      decide
  rw [hend, ← he]
  refine ⟨⟨.notify, 1003, replicate 4097 0, true⟩, mem_singleton_self _, rfl, rfl, ?_⟩
  rw [length_replicate]
  decide

end Levin

end CocaineNode
