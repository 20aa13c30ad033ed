import CocaineNode.Core.Peerlist
import CocaineNode.Lib.Transition
import Mathlib.Data.List.Chain
import Mathlib.Data.List.Nodup

/-!
# The List That Is Filtered

`filter` takes the gray list when it is asked for the white one, and the white
list when it is asked for the gray one. So it does what it is for only where
there is nothing to erase in either list.

`append_with_peer_white` relies on it to make room for a host. The entries of the
host stay in the white list, and those in the gray list are lost. The white list
has one entry per host as long as no new entry comes for a host that it has.

Both lists take an entry in the same way (`record`): a new one may cost the
oldest ones their place, and one that is known is updated where it is. An index
by time is in the order of the times, and whatever calls are made it stays so.

What an update guards, a move does not: an address that goes from the gray list
to the white one is put there as it comes, and what was known of it is lost.

## Theorems

* `PeerlistManager.onePerHost_move`: Operations that meet no rival in the white list.
* `PeerlistManager.peerlist_effects`: What the operations do to the lists.
* `PeerlistManager.peerlist_history_iff`: What holds after any calls.
-/

namespace CocaineNode

open AddressInterface Transition List

variable {α : Type} [DecidableEq α]

namespace PeersIndexed

variable {l : PeersIndexed α} {e x : PeerlistEntry α}

theorem mem_put {k : Nat} : x ∈ (l.put k e).entries ↔ x = e ∨ x ∈ l.entries ∧ x.adr ≠ e.adr := by
  rw [put, (placeAt_perm k e _).mem_iff, mem_cons]
  simp [erase, eraseIf]

theorem mem_of_insert (h : x ∈ (l.insert e).entries) : x = e ∨ x ∈ l.entries := by
  rw [insert] at h
  split at h
  · exact Or.inr h
  · exact (mem_put.mp h).imp_right And.left

omit [DecidableEq α] in
theorem mem_of_trim {limit : Nat} (h : x ∈ (l.trim limit).entries) : x ∈ l.entries :=
  mem_of_mem_drop h

variable [AddressInterface α]

/-- No two entries are of one host. -/
def OnePerHost (l : PeersIndexed α) : Prop :=
  ∀ x ∈ l.entries, ∀ y ∈ l.entries, isSameHost x.adr y.adr = true → x.adr = y.adr

omit [DecidableEq α] in
theorem OnePerHost.of_subset {l' : PeersIndexed α} (h : OnePerHost l)
    (hsub : l'.entries ⊆ l.entries) : OnePerHost l' :=
  fun x hx y hy => h x (hsub hx) y (hsub hy)

omit [DecidableEq α] in
/-- One more entry, which meets none of its host under another address. -/
theorem OnePerHost.of_cons {l' : PeersIndexed α} (h : OnePerHost l)
    (hnew : ∀ x ∈ l.entries, isSameHost x.adr e.adr = true → x.adr = e.adr)
    (hsub : ∀ x ∈ l'.entries, x = e ∨ x ∈ l.entries) : OnePerHost l' := by
  intro x hx y hy hsame
  rcases hsub x hx with rfl | hx
  · rcases hsub y hy with rfl | hy
    · rfl
    · rw [isSameHost_comm] at hsame
      exact (hnew y hy hsame).symm
  · rcases hsub y hy with rfl | hy
    · exact hnew x hx hsame
    · exact h x hx y hy hsame

end PeersIndexed

namespace PeerlistManager

open PeersIndexed

/-- `filter` erases what it should from the list it is asked for, and leaves the other one. -/
def Filters (p : PeerlistManager α) (white : Bool) (f : PeerlistEntry α → Bool) : Prop :=
  let q := (p.filter white f).2
  if white then
    q.peersWhite.entries = p.peersWhite.entries.filter (fun e => !f e) ∧
      q.peersGray.entries = p.peersGray.entries
  else
    q.peersGray.entries = p.peersGray.entries.filter (fun e => !f e) ∧
      q.peersWhite.entries = p.peersWhite.entries

omit [DecidableEq α] in
theorem filters_iff (p : PeerlistManager α) (white : Bool) (f : PeerlistEntry α → Bool) :
    p.Filters white f ↔ ∀ e ∈ p.peersWhite.entries ++ p.peersGray.entries, f e = false := by
  have hself : ∀ l : List (PeerlistEntry α),
      l.filter (fun e => !f e) = l ↔ ∀ e ∈ l, f e = false := by
    intro l
    simp only [filter_eq_self, Bool.not_eq_true']
  rw [forall_mem_append, ← hself, ← hself]
  cases white with
  | true => exact and_congr_left fun _ => eq_comm
  | false => exact (and_congr_left fun _ => eq_comm).trans and_comm

variable [AddressInterface α] {p q : PeerlistManager α} {ple : PeerlistEntry α}

/-- A call of `append_with_peer_white` inserts a new entry. -/
def Inserts (p : PeerlistManager α) (ple : PeerlistEntry α) : Prop :=
  p.isHostAllowed ple.adr = true ∧ p.peersWhite.find ple.adr = none

/-- What is lost from the gray list with a new white entry. -/
theorem appendWithPeerWhite_gray (h : p.Inserts ple) (trust : Bool) :
    (p.appendWithPeerWhite ple trust).peersGray.entries =
        p.peersGray.entries.filter (fun e => e.adr ≠ ple.adr) ↔
      ∀ e ∈ p.peersGray.entries, isSameHost e.adr ple.adr = true → e.adr = ple.adr := by
  have hgray : (p.appendWithPeerWhite ple trust).peersGray.entries =
      (p.peersGray.entries.filter fun e => e.adr ≠ ple.adr).filter
        fun e => !isSameHost e.adr ple.adr := by
    rw [filter_comm]
    simp [appendWithPeerWhite, h.1, h.2, evictHostFromPeerlist, filter, erase, eraseIf]
  rw [hgray, filter_eq_self]
  refine forall_congr' fun e => ?_
  rw [mem_filter, and_imp]
  refine forall_congr' fun _ => ?_
  rw [decide_eq_true_eq, Bool.not_eq_true', ← Bool.not_eq_true]
  exact not_imp_not

/-- One operation on the lists. A new white entry meets none of its host. -/
inductive PeerMove : PeerlistManager α → PeerlistManager α → Prop
  | appendWhite (p : PeerlistManager α) (ple : PeerlistEntry α) (trustLastSeen : Bool) :
      (p.Inserts ple → ∀ e ∈ p.peersWhite.entries, isSameHost e.adr ple.adr = false) →
      PeerMove p (p.appendWithPeerWhite ple trustLastSeen)
  | appendGray (p : PeerlistManager α) (ple : PeerlistEntry α) :
      PeerMove p (p.appendWithPeerGray ple)
  | evictHost (p : PeerlistManager α) (useWhite : Bool) (pr : PeerlistEntry α) :
      PeerMove p (p.evictHostFromPeerlist useWhite pr)
  | filter (p : PeerlistManager α) (white : Bool) (f : PeerlistEntry α → Bool) :
      PeerMove p (p.filter white f).2
  | removeWhite (p : PeerlistManager α) (pe : PeerlistEntry α) :
    PeerMove p (p.removeFromPeerWhite pe)
  | removeGray (p : PeerlistManager α) (pe : PeerlistEntry α) : PeerMove p (p.removeFromPeerGray pe)

omit [DecidableEq α] [AddressInterface α] in
theorem filter_white (p : PeerlistManager α) (white : Bool) (f : PeerlistEntry α → Bool) :
    (p.filter white f).2.peersWhite.entries ⊆ p.peersWhite.entries := by
  cases white with
  | true => exact List.Subset.refl _
  | false => exact filter_subset_self _

theorem appendWithPeerWhite_onePerHost (h : OnePerHost p.peersWhite) (trust : Bool)
    (hnew : p.Inserts ple → ∀ e ∈ p.peersWhite.entries, isSameHost e.adr ple.adr = false) :
    OnePerHost (p.appendWithPeerWhite ple trust).peersWhite := by
  unfold appendWithPeerWhite
  split
  · exact h
  · rename_i hallowed
    rw [Bool.not_eq_true, Bool.not_eq_false'] at hallowed
    cases hfind : p.peersWhite.find ple.adr with
    | none =>
      refine h.of_cons (e := ple) (fun x hx hsame => ?_) fun x hx => ?_
      · rw [hnew ⟨hallowed, hfind⟩ x hx] at hsame
        cases hsame
      · exact mem_of_insert (mem_of_trim hx)
    | some old =>
      -- The entry that is replaced has the address of the new one.
      have hadr : old.adr = ple.adr := by simpa using find?_some hfind
      refine h.of_cons (e := updated old ple trust) (fun x hx hsame => ?_) fun x hx => ?_
      · change isSameHost x.adr ple.adr = true at hsame
        rw [← hadr] at hsame
        exact (h x hx old (mem_of_find?_eq_some hfind) hsame).trans hadr
      · exact (mem_put.mp hx).imp_right And.left

theorem appendWithPeerGray_white (p : PeerlistManager α) (ple : PeerlistEntry α) :
    (p.appendWithPeerGray ple).peersWhite = p.peersWhite := by
  unfold appendWithPeerGray
  split
  · rfl
  · split <;> rfl

/-- Operations that meet no rival keep one entry per host. -/
theorem onePerHost_move :
    Preserves PeerMove fun p : PeerlistManager α => OnePerHost p.peersWhite := by
  intro p q h hmove
  cases hmove with
  | appendWhite ple trust hnew => exact appendWithPeerWhite_onePerHost h trust hnew
  | appendGray ple => exact appendWithPeerGray_white p ple ▸ h
  | evictHost useWhite pr => exact h.of_subset (filter_white p useWhite _)
  | filter white f => exact h.of_subset (filter_white p white f)
  | removeWhite pe => exact h.of_subset (filter_subset_self _)
  | removeGray pe => exact h

/-- `filter` does what it is for exactly when there is nothing to erase in either list. A new white
    entry costs the gray list no other address exactly when that has none of its host. And the white
    list keeps one entry per host while no new entry meets one of its host there. -/
theorem peerlist_effects (p : PeerlistManager α) : (∀ white f, p.Filters white f ↔
        ∀ e ∈ p.peersWhite.entries ++ p.peersGray.entries, f e = false) ∧
      (∀ ple trust, p.Inserts ple → ((p.appendWithPeerWhite ple trust).peersGray.entries =
            p.peersGray.entries.filter (fun e => e.adr ≠ ple.adr) ↔
          ∀ e ∈ p.peersGray.entries, isSameHost e.adr ple.adr = true → e.adr = ple.adr)) ∧
      (OnePerHost p.peersWhite → ∀ q, Run PeerMove p q → OnePerHost q.peersWhite) :=
  ⟨p.filters_iff, fun _ trust h => appendWithPeerWhite_gray h trust,
    fun h _ hrun => onePerHost_move.run hrun h⟩

/-- An entry for a port of a host. -/
def sampleEntry (ip : UInt32) (port : UInt16) : PeerlistEntry Ipv4NetworkAddress :=
  ⟨⟨ip, port⟩, 0, 0, 0, 0, 0⟩

/-- A list of one entry. -/
def sampleList (ip : UInt32) (port : UInt16) : PeersIndexed Ipv4NetworkAddress :=
  ⟨[sampleEntry ip port], nodup_singleton _⟩

/-- A host that comes from the gray list to another one in the white list, and a third host for the
    gray list. -/
theorem peerlist_effects_fresh :
    let p : PeerlistManager Ipv4NetworkAddress := ⟨false, sampleList 5 1, sampleList 6 1⟩
    let q := (p.appendWithPeerWhite (sampleEntry 5 1) true).appendWithPeerGray (sampleEntry 7 2)
    q.peersWhite.entries = [sampleEntry 6 1, sampleEntry 5 1] ∧
      q.peersGray.entries = [sampleEntry 7 2] ∧ OnePerHost q.peersWhite :=
  ⟨by decide, by decide,
    (peerlist_effects (⟨false, sampleList 5 1, sampleList 6 1⟩ : PeerlistManager _)).2.2
      (fun x hx y hy _ => by rw [mem_singleton.mp hx, mem_singleton.mp hy]) _
      ((Relation.ReflTransGen.single
        (.appendWhite _ (sampleEntry 5 1) true fun _ => by decide)).tail
        (.appendGray _ (sampleEntry 7 2)))⟩

/-- One host under three ports, of which the white list has one and the gray list another. `filter`
    empties the wrong list, and the third port leaves the white list with two entries and the gray
    list with none. -/
theorem peerlist_effects_rival :
    let p : PeerlistManager Ipv4NetworkAddress := ⟨false, sampleList 5 2, sampleList 5 1⟩
    let q := p.appendWithPeerWhite (sampleEntry 5 3) true
    OnePerHost p.peersWhite ∧ ¬ p.Filters true (fun _ => true) ∧
      (p.filter true fun _ => true).2.peersWhite.entries = [sampleEntry 5 1] ∧
      (p.filter true fun _ => true).2.peersGray.entries = [] ∧
      ¬ OnePerHost q.peersWhite ∧ q.peersWhite.entries = [sampleEntry 5 1, sampleEntry 5 3] ∧
      q.peersGray.entries = [] := by
  refine ⟨?_, ?_, by decide, by decide, ?_, by decide, by decide⟩
  · exact fun x hx y hy _ => by rw [mem_singleton.mp hx, mem_singleton.mp hy]
  · exact fun h => absurd h.1 (by decide)
  · exact fun h => absurd
      (h (sampleEntry 5 1) (by decide) (sampleEntry 5 3) (by decide) (by decide))
      (by decide)

end PeerlistManager

/-! ## Histories of calls -/

namespace PeersIndexed

open PeerlistManager

variable {l l' : PeersIndexed α} {e x y : PeerlistEntry α} {limit : Nat} {trust : Bool}

/-- The entries are in the order of their times. -/
def Ordered (l : PeersIndexed α) : Prop :=
  l.entries.Pairwise (·.lastSeen ≤ ·.lastSeen)

omit [DecidableEq α] in
/-- The neighbours at the place that the times give an entry. -/
theorem timeIndex_between (l : List (PeerlistEntry α)) :
    (∀ f ∈ (l.take (timeIndex e l)).getLast?, f.lastSeen ≤ e.lastSeen) ∧
      ∀ f ∈ (l.drop (timeIndex e l)).head?, e.lastSeen ≤ f.lastSeen := by
  constructor
  · intro f hf
    rw [timeIndex, ← prefix_iff_eq_take.mp ( takeWhile_prefix _)] at hf
    simpa using all_eq_true.mp all_takeWhile f (mem_of_getLast? hf)
  · induction l with
    | nil => simp
    | cons a l ih =>
      by_cases ha : a.lastSeen ≤ e.lastSeen
      · simpa [timeIndex, ha] using ih
      · simpa [timeIndex, ha] using Int.le_of_lt (Int.not_le.mp ha)

/-- In the order of the times, an entry only has to fit between its neighbours. -/
theorem Ordered.put (h : l.Ordered) {k : Nat}
    (hplace : (∀ f ∈ ((l.erase e.adr).entries.take k).getLast?, f.lastSeen ≤ e.lastSeen) ∧
      ∀ f ∈ ((l.erase e.adr).entries.drop k).head?, e.lastSeen ≤ f.lastSeen) :
        (l.put k e).Ordered := by
  have hrest : (l.erase e.adr).entries.Pairwise (·.lastSeen ≤ ·.lastSeen) :=
    h.sublist filter_sublist
  rw [Ordered, ← isChain_iff_pairwise]
  refine isChain_append.mpr ⟨(hrest.sublist (take_sublist _ _)).isChain,
    isChain_cons.mpr ⟨hplace.2, (hrest.sublist (drop_sublist _ _)).isChain⟩, fun f hf g hg => ?_⟩
  cases hg
  exact hplace.1 f hf

theorem erase_of_find (h : l.find e.adr = none) : (l.erase e.adr).entries = l.entries := by
  simpa [find, erase, eraseIf] using h

theorem Ordered.insert (h : l.Ordered) : (l.insert e).Ordered := by
  rw [PeersIndexed.insert]
  split_ifs with hfind
  · exact h
  · rw [← erase_of_find (Option.not_isSome_iff_eq_none.mp hfind)]
    exact h.put (timeIndex_between _)

theorem Ordered.replace (h : l.Ordered) : (l.replace e).Ordered := by
  refine h.put ?_
  split_ifs with hplace
  · simpa [Option.all_eq_true] using hplace
  · exact timeIndex_between _

omit [DecidableEq α] in
theorem trim_sublist (l : PeersIndexed α) (limit : Nat) :
    (l.trim limit).entries.Sublist l.entries :=
  drop_sublist _ _

/-- A list takes an entry that it may know. -/
def record (l : PeersIndexed α) (e : PeerlistEntry α) (trust : Bool) (limit : Nat) :
    PeersIndexed α :=
  match l.find e.adr with
  | none => (l.insert e).trim limit
  | some old => l.replace (updated old e trust)

/-- What is known of an address stays: its time, unless the new one is trusted, a pruning seed and
    an RPC port. -/
def Keeps (trust : Bool) (x y : PeerlistEntry α) : Prop :=
  (trust = false → y.lastSeen = x.lastSeen) ∧ (x.pruningSeed ≠ 0 → y.pruningSeed ≠ 0) ∧
    (x.rpcPort ≠ 0 → y.rpcPort ≠ 0)

omit [DecidableEq α] in
theorem Keeps.refl : Keeps trust x x :=
  ⟨fun _ => rfl, id, id⟩

/-- What a list keeps when it takes an entry. -/
structure Records (l : PeersIndexed α) (e : PeerlistEntry α) (trust : Bool) (limit : Nat)
    (l' : PeersIndexed α) : Prop where
  new : l.find e.adr = none → l'.entries.length ≤ limit ∧
    ∃ dropped, (dropped ++ l'.entries).Perm (e :: l.entries) ∧
      ∀ x ∈ dropped, ∀ y ∈ l'.entries, x.lastSeen ≤ y.lastSeen
  known : ∀ x ∈ l.entries, ∀ y ∈ l'.entries, x.adr = y.adr → Keeps trust x y

theorem Ordered.record (h : l.Ordered) : (l.record e trust limit).Ordered := by
  unfold PeersIndexed.record
  cases l.find e.adr with
  | none => exact h.insert.sublist (trim_sublist _ _)
  | some old => exact h.replace

theorem mem_of_record (h : x ∈ (l.record e trust limit).entries) :
    x.adr = e.adr ∨ x ∈ l.entries := by
  unfold record at h
  split at h
  · exact (mem_of_insert (mem_of_trim h)).imp_left (congrArg _)
  · rcases mem_put.mp h with rfl | hmem
    · exact Or.inl rfl
    · exact Or.inr hmem.1

theorem record_records (h : l.Ordered) : l.Records e trust limit (l.record e trust limit) where
  new hfind := by
    have hins : l.record e trust limit = (l.insert e).trim limit := by rw [record, hfind]
    have hperm : (l.insert e).entries.Perm (e :: l.entries) := by
      rw [insert, hfind, if_neg (by simp), ← erase_of_find hfind]
      exact placeAt_perm _ e _
    have horder := h.insert (e := e)
    rw [Ordered, ← take_append_drop ((l.insert e).entries.length - limit) (l.insert e).entries,
      pairwise_append] at horder
    rw [hins]
    refine ⟨?_, _, ?_, horder.2.2⟩
    · simp only [trim, length_drop]
      omega
    · rwa [trim, take_append_drop]
  known x hx y hy hadr := by
    have hsame (hy : y ∈ l.entries) : x = y := inj_on_of_nodup_map l.unique hx hy hadr
    unfold record at hy
    split at hy
    · rename_i hfind
      rcases mem_of_insert (mem_of_trim hy) with rfl | hy
      · simpa [find, hadr] using find?_eq_none.mp hfind x hx
      · exact hsame hy ▸ .refl
    · rename_i old hfind
      rcases mem_put.mp hy with rfl | hy
      · have hold : old.adr = e.adr := by simpa using find?_some hfind
        rw [inj_on_of_nodup_map l.unique hx (mem_of_find?_eq_some hfind) (hadr.trans hold.symm)]
        refine ⟨fun h => by simp [updated, h], fun h => ?_, fun h => ?_⟩
        · simp only [updated]
          split_ifs <;> simp_all
        · simp only [updated]
          split_ifs <;> simp_all
      · exact hsame hy.1 ▸ .refl

omit [DecidableEq α] in
/-- In the order of the times, the entries behind the place of a new one are the newer ones. -/
theorem countP_newer {l : List (PeerlistEntry α)} (h : l.Pairwise (·.lastSeen ≤ ·.lastSeen)) :
    l.countP (e.lastSeen < ·.lastSeen) + timeIndex e l = l.length := by
  induction l with
  | nil => rfl
  | cons a l ih =>
    rw [pairwise_cons] at h
    by_cases ha : a.lastSeen ≤ e.lastSeen
    · have hnot : ¬ e.lastSeen < a.lastSeen := Int.not_lt.mpr ha
      have hl := ih h.2
      simp only [timeIndex, takeWhile_cons, countP_cons, ha, hnot, decide_true,
        decide_false, if_true,
        length_cons, Bool.false_eq_true, if_false] at hl ⊢
      omega
    · have hall : ∀ b ∈ a :: l, decide (e.lastSeen < b.lastSeen) = true := by
        intro b hb
        rcases mem_cons.mp hb with rfl | hb
        · exact decide_eq_true (Int.not_le.mp ha)
        · exact decide_eq_true (Int.lt_of_lt_of_le (Int.not_le.mp ha) (h.1 b hb))
      simp [countP_eq_length.mpr hall, timeIndex, ha]

/-- A new entry stays if fewer than the limit are newer. -/
theorem mem_trim_insert (h : l.Ordered) (hfind : l.find e.adr = none) :
    e ∈ ((l.insert e).trim limit).entries ↔
      l.entries.countP (e.lastSeen < ·.lastSeen) < limit := by
  have hnew : ∀ k, e ∉ l.entries.drop k := by
    intro k hmem
    simpa using find?_eq_none.mp hfind e (mem_of_mem_drop hmem)
  have hcount := countP_newer (e := e) h
  have hplace : (l.insert e).entries = l.entries.take (timeIndex e l.entries) ++
      e :: l.entries.drop (timeIndex e l.entries) := by
    rw [insert, hfind, if_neg (by simp)]
    exact congrArg (placeAt _ e) (erase_of_find hfind)
  have hlength : (l.insert e).entries.length = l.entries.length + 1 := by
    rw [hplace, length_append, length_cons, length_take, length_drop]
    omega
  change e ∈ (l.insert e).entries.drop ((l.insert e).entries.length - limit) ↔ _
  rw [hlength, hplace]
  rcases Nat.lt_or_ge (timeIndex e l.entries) (l.entries.length + 1 - limit) with hlt | hge
  · -- The new entry is dropped with those in front of it.
    refine iff_of_false ?_ (by omega)
    rcases Nat.exists_eq_add_of_lt hlt with ⟨m, hm⟩
    have hlen : (l.entries.take (timeIndex e l.entries)).length = timeIndex e l.entries := by
      rw [length_take]
      omega
    rw [hm, drop_append, drop_eq_nil_of_le (by omega), nil_append, hlen, Nat.add_assoc,
      Nat.add_sub_cancel_left, drop_succ_cons, drop_drop]
    exact hnew _
  · refine iff_of_true ?_ (by omega)
    rw [drop_append_of_le_length (by rw [length_take]; omega)]
    exact mem_append_right _ (mem_cons_self ..)

end PeersIndexed

namespace PeerlistManager

open PeersIndexed

variable [AddressInterface α] {p q : PeerlistManager α} {ple : PeerlistEntry α} {trust : Bool}

/-- A call on the lists. `filter` is also what evicts a host. -/
inductive PeerCall : PeerlistManager α → PeerlistManager α → Prop
  | appendWhite p ple trustLastSeen : PeerCall p (p.appendWithPeerWhite ple trustLastSeen)
  | appendGray p ple : PeerCall p (p.appendWithPeerGray ple)
  | merge p outerBs f : PeerCall p (p.mergePeerlist outerBs f)
  | justSeen p peer addr pruningSeed rpcPort rpcCreditsPerHash time :
      PeerCall p (p.setPeerJustSeen peer addr pruningSeed rpcPort rpcCreditsPerHash time)
  | filter p white f : PeerCall p (p.filter white f).2
  | removeWhite p pe : PeerCall p (p.removeFromPeerWhite pe)
  | removeGray p pe : PeerCall p (p.removeFromPeerGray pe)

/-- No address is in both lists. -/
def Apart (p : PeerlistManager α) : Prop :=
  ∀ x ∈ p.peersWhite.entries, ∀ y ∈ p.peersGray.entries, x.adr ≠ y.adr

/-- The lists are apart and in the order of the times. -/
structure InOrder (p : PeerlistManager α) : Prop where
  apart : p.Apart
  white : p.peersWhite.Ordered
  gray : p.peersGray.Ordered

omit [DecidableEq α] [AddressInterface α] in
theorem InOrder.shrink (h : p.InOrder) (hwhite : q.peersWhite.entries.Sublist p.peersWhite.entries)
    (hgray : q.peersGray.entries.Sublist p.peersGray.entries) : q.InOrder :=
  ⟨fun x hx y hy => h.apart x (hwhite.subset hx) y (hgray.subset hy), h.white.sublist hwhite,
    h.gray.sublist hgray⟩

/-- A white entry goes into one list and its address out of the other. -/
theorem appendWithPeerWhite_eq (h : p.isHostAllowed ple.adr = true) (trust : Bool) :
    (p.appendWithPeerWhite ple trust).peersWhite =
        p.peersWhite.record ple trust localWhitePeerlistLimit ∧
      (p.appendWithPeerWhite ple trust).peersGray.entries.Sublist
        (p.peersGray.erase ple.adr).entries := by
  rw [appendWithPeerWhite, h, if_neg (by simp), record]
  cases p.peersWhite.find ple.adr with
  | none => exact ⟨rfl, filter_sublist.filter _⟩
  | some old => exact ⟨rfl, .refl _⟩

theorem appendWithPeerGray_eq (h : p.isHostAllowed ple.adr = true)
    (hwhite : p.peersWhite.find ple.adr = none) :
    p.appendWithPeerGray ple =
      { p with peersGray := p.peersGray.record ple false localGrayPeerlistLimit } := by
  rw [appendWithPeerGray, h, hwhite, if_neg (by simp), record]
  cases p.peersGray.find ple.adr <;> rfl

theorem InOrder.appendWhite (h : p.InOrder) : (p.appendWithPeerWhite ple trust).InOrder := by
  cases hallowed : p.isHostAllowed ple.adr with
  | false => simpa [appendWithPeerWhite, hallowed] using h
  | true =>
    obtain ⟨hwhite, hgray⟩ := appendWithPeerWhite_eq hallowed trust
    refine ⟨fun x hx y hy => ?_, hwhite ▸ h.white.record,
      (h.gray.sublist filter_sublist).sublist hgray⟩
    have hy := hgray.subset hy
    simp only [erase, eraseIf, mem_filter, Bool.not_eq_true', decide_eq_false_iff_not] at hy
    rcases mem_of_record (hwhite ▸ hx) with hadr | hx
    · exact hadr ▸ Ne.symm hy.2
    · exact h.apart x hx y hy.1

theorem InOrder.appendGray (h : p.InOrder) : (p.appendWithPeerGray ple).InOrder := by
  cases hallowed : p.isHostAllowed ple.adr with
  | false => simpa [appendWithPeerGray, hallowed] using h
  | true =>
    cases hfind : p.peersWhite.find ple.adr with
    | some old => simpa [appendWithPeerGray, hfind] using h
    | none =>
      rw [appendWithPeerGray_eq hallowed hfind]
      refine ⟨fun x hx y hy => ?_, h.white, h.gray.record⟩
      rcases mem_of_record hy with hadr | hy
      · simpa [hadr] using find?_eq_none.mp hfind x hx
      · exact h.apart x hx y hy

theorem inOrder_call : Preserves PeerCall (InOrder (α := α)) := by
  intro p q h hcall
  cases hcall with
  | appendWhite ple trust => exact h.appendWhite
  | justSeen peer addr seed port credits time => exact h.appendWhite
  | appendGray ple => exact h.appendGray
  | merge outerBs f =>
    have hq : InOrder ((outerBs.filter f).foldl appendWithPeerGray p) :=
      foldlRecOn _ _ h fun _ hq _ _ => hq.appendGray
    unfold mergePeerlist
    generalize (outerBs.filter f).foldl appendWithPeerGray p = q at hq ⊢
    exact hq.shrink (.refl _) (trim_sublist _ _)
  | filter white f => cases white with
    | false => exact h.shrink filter_sublist (.refl _)
    | true => exact h.shrink (.refl _) filter_sublist
  | removeWhite pe => exact h.shrink filter_sublist (.refl _)
  | removeGray pe => exact h.shrink (.refl _) filter_sublist

/-- The records of both lists. -/
def records (p : PeerlistManager α) : List (PeerlistEntry α) :=
  p.peersWhite.entries ++ p.peersGray.entries

/-- What is known of an address is still known if the address is. -/
def Remembers (trust : Bool) (p q : PeerlistManager α) : Prop :=
  ∀ x ∈ p.records, ∀ y ∈ q.records, x.adr = y.adr → Keeps trust x y

omit [DecidableEq α] [AddressInterface α] in
theorem InOrder.eq_of_adr (h : p.InOrder) {x y : PeerlistEntry α} (hx : x ∈ p.records)
    (hy : y ∈ p.records) (hadr : x.adr = y.adr) : x = y := by
  rcases mem_append.mp hx with hx | hx <;> rcases mem_append.mp hy with hy | hy
  · exact inj_on_of_nodup_map p.peersWhite.unique hx hy hadr
  · exact absurd hadr (h.apart x hx y hy)
  · exact absurd hadr.symm (h.apart y hy x hx)
  · exact inj_on_of_nodup_map p.peersGray.unique hx hy hadr

omit [DecidableEq α] [AddressInterface α] in
theorem InOrder.remembers_refl (h : p.InOrder) : Remembers trust p p :=
  fun _ hx _ hy hadr => h.eq_of_adr hx hy hadr ▸ .refl

theorem InOrder.appendGray_remembers (h : p.InOrder) (ple : PeerlistEntry α) :
    Remembers false p (p.appendWithPeerGray ple) := by
  cases hallowed : p.isHostAllowed ple.adr with
  | false => simpa [appendWithPeerGray, hallowed] using h.remembers_refl
  | true =>
    cases hfind : p.peersWhite.find ple.adr with
    | some old => simpa [appendWithPeerGray, hfind] using h.remembers_refl
    | none =>
      intro x hx y hy hadr
      have horder : (p.appendWithPeerGray ple).InOrder := h.appendGray
      rw [appendWithPeerGray_eq hallowed hfind] at hy horder
      rcases mem_append.mp hy with hy | hy
      · exact h.eq_of_adr hx (mem_append_left _ hy) hadr ▸ .refl
      · rcases mem_append.mp hx with hx | hx
        · exact absurd hadr (horder.apart x hx y hy)
        · exact (record_records h.gray).known x hx y hy hadr

/-- A white entry takes nothing from what is known unless it comes for an address of the gray list.
    -/
theorem InOrder.appendWhite_remembers (h : p.InOrder) (ple : PeerlistEntry α) (trust : Bool) :
    Remembers trust p (p.appendWithPeerWhite ple trust) ↔ (p.isHostAllowed ple.adr = true →
      p.peersWhite.entries.countP (ple.lastSeen < ·.lastSeen) < localWhitePeerlistLimit →
        ∀ x ∈ p.peersGray.entries, x.adr = ple.adr → Keeps trust x ple) := by
  cases hallowed : p.isHostAllowed ple.adr with
  | false => simpa [appendWithPeerWhite, hallowed] using h.remembers_refl
  | true =>
    obtain ⟨hwhite, hgray⟩ := appendWithPeerWhite_eq hallowed trust
    -- A gray address is not in the white list, so there it is new.
    have hnew : ∀ x ∈ p.peersGray.entries, x.adr = ple.adr → p.peersWhite.find ple.adr = none :=
      fun x hx hadr => find?_eq_none.mpr fun y hy => by simpa [hadr] using h.apart y hy x hx
    have hput (hfind : p.peersWhite.find ple.adr = none) :
        (p.appendWithPeerWhite ple trust).peersWhite =
          (p.peersWhite.insert ple).trim localWhitePeerlistLimit := by
      rw [hwhite, record, hfind]
    constructor
    · intro hrem _ hcount x hx hadr
      refine hrem x (mem_append_right _ hx) ple (mem_append_left _ ?_) hadr
      rw [hput (hnew x hx hadr)]
      exact (mem_trim_insert h.white (hnew x hx hadr)).mpr hcount
    · intro hkeeps x hx y hy hadr
      rcases mem_append.mp hy with hy | hy
      · rcases mem_append.mp hx with hx | hx
        · exact (hwhite ▸ record_records h.white).known x hx y hy hadr
        · rcases mem_of_record (hwhite ▸ hy) with hple | hy'
          · have hfind := hnew x hx (hadr.trans hple)
            rw [hput hfind] at hy
            rcases mem_of_insert (mem_of_trim hy) with rfl | hmem
            · exact hkeeps rfl ((mem_trim_insert h.white hfind).mp hy) x hx hadr
            · exact absurd hadr.symm (h.apart y hmem x hx)
          · exact absurd hadr.symm (h.apart y hy' x hx)
      · have hy := filter_subset_self _ (hgray.subset hy)
        exact h.eq_of_adr hx (mem_append_right _ hy) hadr ▸ .refl

/-- From lists that are apart no calls bring an address into both. An insertion drops the oldest
    entries above the limit of the list, and a list never loses the time, pruning seed or RPC port
    of an address it keeps. Nor is any lost by a gray entry; and by a white one exactly if it stays
    in the list, is for a gray address, and does not bring itself what is known. -/
theorem peerlist_history_iff (h : p.InOrder) (hrun : Run PeerCall p q) : q.Apart ∧
      (∀ ple trust, q.isHostAllowed ple.adr = true →
        q.peersWhite.Records ple trust localWhitePeerlistLimit
          (q.appendWithPeerWhite ple trust).peersWhite) ∧
      (∀ ple, q.isHostAllowed ple.adr = true → q.peersWhite.find ple.adr = none →
        q.peersGray.Records ple false localGrayPeerlistLimit (q.appendWithPeerGray ple).peersGray) ∧
      (∀ ple, Remembers false q (q.appendWithPeerGray ple)) ∧
      ∀ ple trust, Remembers trust q (q.appendWithPeerWhite ple trust) ↔
        (q.isHostAllowed ple.adr = true →
          q.peersWhite.entries.countP (ple.lastSeen < ·.lastSeen) < localWhitePeerlistLimit →
            ∀ x ∈ q.peersGray.entries, x.adr = ple.adr → Keeps trust x ple) := by
  have hq := inOrder_call.run hrun h
  refine ⟨hq.apart, fun ple trust hallowed => ?_, fun ple hallowed hwhite => ?_,
    hq.appendGray_remembers, hq.appendWhite_remembers⟩
  · exact (appendWithPeerWhite_eq hallowed trust).1 ▸ record_records hq.white
  · exact appendWithPeerGray_eq hallowed hwhite ▸ record_records hq.gray

/-- A record of a pruned node that serves RPC calls. -/
def prunedEntry (port : UInt16) (lastSeen : Int) : PeerlistEntry Ipv4NetworkAddress :=
  ⟨⟨5, port⟩, 9, lastSeen, 0x181, 18089, 1⟩

/-- A node with one record in either list, after the gray address was seen again with its seed and
    port: nothing of it is lost, nor by the next gray entry. -/
theorem peerlist_history_promoted :
    let p : PeerlistManager Ipv4NetworkAddress := ⟨false, ⟨[prunedEntry 2 100], nodup_singleton _⟩,
      ⟨[prunedEntry 1 50], nodup_singleton _⟩⟩
    let q := p.appendWithPeerWhite (prunedEntry 2 200) true
    q.peersWhite.entries = [prunedEntry 1 50, prunedEntry 2 200] ∧ q.Apart ∧
      Remembers false q (q.appendWithPeerGray (sampleEntry 7 1)) :=
  have h := peerlist_history_iff (p := ⟨false, ⟨[prunedEntry 2 100], nodup_singleton _⟩,
      ⟨[prunedEntry 1 50], nodup_singleton _⟩⟩)
    ⟨by simp [Apart, prunedEntry], pairwise_singleton _ _, pairwise_singleton _ _⟩
    (.single (.appendWhite _ (prunedEntry 2 200) true))
  ⟨by decide, h.1, h.2.2.2.1 _⟩

/-- A record of the gray list that comes for the white one without seed and port, and without trust:
    the seed, the port and the time are lost. -/
theorem promotion_forgets :
    let p : PeerlistManager Ipv4NetworkAddress :=
      appendWithPeerGray ⟨false, .empty, .empty⟩ (prunedEntry 1 100)
    let q := p.appendWithPeerWhite (sampleEntry 5 1) false
    p.records = [prunedEntry 1 100] ∧ q.records = [sampleEntry 5 1] ∧ ¬ Remembers false p q := by
  refine ⟨by decide, by decide, fun h => ?_⟩
  exact absurd ((h (prunedEntry 1 100) (by decide) (sampleEntry 5 1) (by decide) rfl).1
    rfl) (by decide)

end PeerlistManager

end CocaineNode
