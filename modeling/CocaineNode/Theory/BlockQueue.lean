import CocaineNode.Core.BlockQueue
import CocaineNode.Lib.Transition

/-!
# Requested and Received Hashes

The block queue keeps the hashes that were requested and those that were
received in two tables of their own, next to the spans they belong to. A span
that is erased takes its hashes out of both, whether or not another span lists
them too. `reserve_span` gives out such hashes: it skips those that were
requested before at the beginning of what a peer offers, and not in the middle.
So a hash may be listed and not be requested (`listed_not_requested`), and one
that was requested may be reserved again (`reserveSpan_twice`).

The tables are right as long as every call fits the queue it finds (`Fits`).
Spans that are erased must not share a hash with one that stays. Blocks must
come for a span that lists exactly their hashes. And a span whose hashes are
replaced must not have its blocks yet. The blocks themselves are opaque to the
queue, so their hashes are a parameter here.

The next needed height is where the first gap in the spans begins. One pass in
their order finds it, as long as no span ends beyond the 64-bit heights.

## Theorems

* `BlockQueue.fits_exact`: A call that fits keeps the tables right.
* `BlockQueue.requested_have_iff`: What is reported after any run.
* `BlockQueue.reserveSpan_slice_iff`: When what is reserved is as promised.
* `BlockQueue.getNextNeededHeight_isLeast`: The least height that is not covered.
-/

namespace CocaineNode

namespace BlockQueue

open Transition List UInt64

/-! ## The two tables -/

variable (l : List Hash)

theorem mem_foldl_erase (t : Finset Hash) (h : Hash) :
    h ∈ l.foldl Finset.erase t ↔ h ∈ t ∧ h ∉ l := by
  induction l generalizing t with
  | nil => simp
  | cons x rest ih =>
    rw [foldl_cons, ih, Finset.mem_erase, mem_cons, not_or]
    tauto

theorem mem_foldl_insert (t : Finset Hash) (h : Hash) :
    h ∈ l.foldl (fun t h => insert h t) t ↔ h ∈ t ∨ h ∈ l := by
  induction l generalizing t with
  | nil => simp
  | cons x rest ih =>
    rw [foldl_cons, ih, Finset.mem_insert, mem_cons]
    tauto

theorem mem_foldl_eraseKey (t : AList fun _ : Hash => UInt64) (h : Hash) :
    h ∈ l.foldl (fun t h => t.erase h) t ↔ h ∈ t ∧ h ∉ l := by
  induction l generalizing t with
  | nil => simp
  | cons x rest ih =>
    rw [foldl_cons, ih, AList.mem_erase, mem_cons, not_or]
    tauto

theorem mem_emplaceAll (t : AList fun _ : Hash => UInt64) (height : UInt64)
    (h : Hash) : h ∈ emplaceAll t height l ↔ h ∈ t ∨ h ∈ l := by
  induction l generalizing t height with
  | nil => simp [emplaceAll]
  | cons x rest ih =>
    have hone : h ∈ emplace t x height ↔ h ∈ t ∨ h = x := by
      unfold emplace
      split
      · rename_i hin
        refine ⟨Or.inl, ?_⟩
        intro hmem
        rcases hmem with hmem | rfl
        · exact hmem
        · exact hin
      · rw [AList.mem_insert]
        exact or_comm
    rw [emplaceAll, ih, hone, mem_cons, or_assoc]

/-- Some span lists the hash. -/
def Lists (q : BlockQueue) (h : Hash) : Prop :=
  ∃ s ∈ q.blocks, h ∈ s.hashes

/-- Some span has a block with the hash. -/
def Holds (idOf : BlockCompleteEntry → Hash) (q : BlockQueue) (h : Hash) : Prop :=
  ∃ s ∈ q.blocks, ∃ e ∈ s.blocks, idOf e = h

/-- The tables say what the spans list and hold, and a filled span lists its blocks. -/
structure Exact (idOf : BlockCompleteEntry → Hash) (q : BlockQueue) : Prop where
  requested : ∀ h, h ∈ q.requestedHashes ↔ q.Lists h
  received : ∀ h, h ∈ q.haveBlocks ↔ q.Holds idOf h
  filled : ∀ s ∈ q.blocks, s.blocks ≠ [] → s.hashes = s.blocks.map idOf

theorem empty_exact (idOf : BlockCompleteEntry → Hash) : Exact idOf empty := by
  refine ⟨fun h => ?_, fun h => ?_, ?_⟩
  · simp [empty, Lists]
  · simp [empty, Holds]
  · intro s hs
    cases hs

section

variable {idOf : BlockCompleteEntry → Hash} {q : BlockQueue} {s : Span}

/-- A filled span that is in the queue lists every block it has. -/
theorem Exact.mem_hashes (h : Exact idOf q) (hs : s ∈ q.blocks) {e : BlockCompleteEntry}
    (he : e ∈ s.blocks) : idOf e ∈ s.hashes := by
  rw [h.filled s hs (ne_nil_of_mem he)]
  exact mem_map_of_mem he

/-! ## Spans erased -/

/-- Spans that go share no hash with one that stays. -/
def Apart (q : BlockQueue) (gone : Span → Bool) : Prop :=
  ∀ s ∈ q.blocks, gone s = true → ∀ t ∈ q.blocks, gone t = false → ∀ h ∈ s.hashes, h ∉ t.hashes

theorem mem_requested_eraseSpans (q : BlockQueue) (gone : Span → Bool) (h : Hash) :
    h ∈ (q.eraseSpans gone).requestedHashes ↔
      h ∈ q.requestedHashes ∧ ∀ s ∈ q.blocks, gone s = true → h ∉ s.hashes := by
  change h ∈ foldl Finset.erase _ _ ↔ _
  rw [mem_foldl_erase]
  simp

theorem mem_have_eraseSpans (q : BlockQueue) (gone : Span → Bool) (h : Hash) :
    h ∈ (q.eraseSpans gone).haveBlocks ↔
      h ∈ q.haveBlocks ∧ ∀ s ∈ q.blocks, gone s = true → h ∉ s.hashes := by
  change h ∈ foldl (fun t h => AList.erase h t) _ _ ↔ _
  rw [mem_foldl_eraseKey]
  simp

/-- Erasing spans keeps the tables right exactly when those spans are apart from the others. -/
theorem eraseSpans_exact_iff (h : Exact idOf q) (gone : Span → Bool) :
    Exact idOf (q.eraseSpans gone) ↔ q.Apart gone := by
  constructor
  · intro hafter s hs hgone t ht hstays hash hlisted hother
    -- The hash has been taken out, and is still listed.
    have hin : hash ∈ (q.eraseSpans gone).requestedHashes :=
      (hafter.requested hash).mpr ⟨t, (mem_eraseSpans q gone t).mpr ⟨ht, hstays⟩, hother⟩
    exact ((mem_requested_eraseSpans q gone hash).mp hin).2 s hs hgone hlisted
  · intro hapart
    -- What the spans say of a hash they list is said by those that stay.
    have hkept : ∀ (hash : Hash) (P : Span → Prop), (∀ t ∈ q.blocks, P t → hash ∈ t.hashes) →
        (((∃ t ∈ q.blocks, P t) ∧ ∀ s ∈ q.blocks, gone s = true → hash ∉ s.hashes) ↔
          ∃ t ∈ (q.eraseSpans gone).blocks, P t) := by
      intro hash P hlisted
      constructor
      · rintro ⟨⟨t, ht, hP⟩, hnone⟩
        refine ⟨t, (mem_eraseSpans q gone t).mpr ⟨ht, ?_⟩, hP⟩
        by_contra hgone
        exact hnone t ht (by simpa using hgone) (hlisted t ht hP)
      · rintro ⟨t, ht, hP⟩
        rcases (mem_eraseSpans q gone t).mp ht with ⟨ht, hstays⟩
        refine ⟨⟨t, ht, hP⟩, fun s hs hgone hother => ?_⟩
        exact hapart s hs hgone t ht hstays hash hother (hlisted t ht hP)
    refine ⟨fun hash => ?_, fun hash => ?_, ?_⟩
    · rw [mem_requested_eraseSpans, h.requested]
      exact hkept hash _ fun _ _ hlisted => hlisted
    · rw [mem_have_eraseSpans, h.received]
      refine hkept hash _ fun t ht hholds => ?_
      rcases hholds with ⟨e, he, rfl⟩
      exact h.mem_hashes ht he
    · intro s hs hne
      exact h.filled s ((mem_eraseSpans q gone s).mp hs).1 hne

/-! ## One span replaced -/

/-- A queue in which a span has taken the place of another. -/
def Replaces (q q' : BlockQueue) (s s' : Span) : Prop :=
  ∀ t, t ∈ q'.blocks ↔ t = s' ∨ t ∈ q.blocks ∧ t ≠ s

theorem eq_of_start {t : Span} (hs : s ∈ q.blocks) (ht : t ∈ q.blocks)
    (h : s.startBlockHeight = t.startBlockHeight) : s = t :=
  (sorted_iff.mp q.sorted).eq_of_key hs ht (congrArg toNat h)

theorem mem_insertSpan (hnew : ∀ t ∈ q.blocks, t.startBlockHeight ≠ s.startBlockHeight) (t : Span) :
    t ∈ (q.insertSpan s).blocks ↔ t = s ∨ t ∈ q.blocks := by
  refine OrderedSet.mem_insert ?_
  intro t ht hkey
  exact hnew t ht (UInt64.toNat_inj.mp hkey)

/-- A span is not inserted where one starts already. -/
theorem insertSpan_eq_self {t : Span} (ht : t ∈ q.blocks)
    (h : t.startBlockHeight = s.startBlockHeight) : q.insertSpan s = q := by
  have hblocks : OrderedSet.insert startOf s q.blocks = q.blocks :=
    OrderedSet.insert_eq_self (sorted_iff.mp q.sorted) ht (congrArg toNat h)
  unfold insertSpan
  congr

variable {q' : BlockQueue} {s' : Span}

/-- What the spans of a queue in which one was replaced say. -/
theorem Replaces.exists_iff (h : Replaces q q' s s') (P : Span → Prop) :
    (∃ t ∈ q'.blocks, P t) ↔ P s' ∨ ∃ t ∈ q.blocks, t ≠ s ∧ P t := by
  simp only [h _, or_and_right, exists_or, exists_eq_left, and_assoc]

section

variable (hs : s ∈ q.blocks)
include hs

/-- What the spans say, one of them or another. -/
theorem exists_iff_of_mem (P : Span → Prop) :
    (∃ t ∈ q.blocks, P t) ↔ P s ∨ ∃ t ∈ q.blocks, t ≠ s ∧ P t := by
  refine Replaces.exists_iff (fun t => ?_) P
  by_cases hts : t = s
  · simp [hts, hs]
  · simp [hts]

/-- The span that starts at a height is the only one the walk erases. -/
theorem erase_start_iff (hash : Hash) :
    (∀ t ∈ q.blocks, decide (t.startBlockHeight = s.startBlockHeight) = true → hash ∉ t.hashes) ↔
      hash ∉ s.hashes := by
  refine ⟨fun h => h s hs (decide_eq_true rfl), ?_⟩
  intro h t ht hstart
  rw [eq_of_start ht hs (of_decide_eq_true hstart)]
  exact h

/-- A span inserted where another was erased has taken its place. -/
theorem replaces_erase_insert (hstart : s'.startBlockHeight = s.startBlockHeight) :
    Replaces q ((q.eraseSpans fun t => t.startBlockHeight = s.startBlockHeight).insertSpan s') s
      s' := by
  intro t
  rw [mem_insertSpan]
  · rw [mem_eraseSpans, decide_eq_false_iff_not]
    constructor
    · intro h
      refine h.imp_right fun h => ⟨h.1, ?_⟩
      rintro rfl
      exact h.2 rfl
    · intro h
      refine h.imp_right fun h => ⟨h.1, fun heq => h.2 (eq_of_start h.1 hs heq)⟩
  · intro t ht
    rw [mem_eraseSpans, decide_eq_false_iff_not] at ht
    rw [hstart]
    exact ht.2

/-- What `set_span_hashes` does to a span it finds. -/
theorem setSpanHashes_spec (hashes : List Hash) :
    Replaces q (q.setSpanHashes s.startBlockHeight s.connectionId hashes) s { s with hashes } ∧
      (∀ h, h ∈ (q.setSpanHashes s.startBlockHeight s.connectionId hashes).requestedHashes ↔
        (h ∈ q.requestedHashes ∧ h ∉ s.hashes) ∨ h ∈ hashes) ∧
      ∀ h, h ∈ (q.setSpanHashes s.startBlockHeight s.connectionId hashes).haveBlocks ↔
        h ∈ q.haveBlocks ∧ h ∉ s.hashes := by
  have hfind : (q.blocks.find? fun t => t.startBlockHeight = s.startBlockHeight &&
      t.connectionId = s.connectionId) = some s := by
    cases hf : q.blocks.find? fun t => t.startBlockHeight = s.startBlockHeight &&
        t.connectionId = s.connectionId with
    | none => simpa using find?_eq_none.mp hf s hs
    | some t =>
      have hstart := find?_some hf
      simp only [Bool.and_eq_true, decide_eq_true_eq] at hstart
      rw [eq_of_start (mem_of_find?_eq_some hf) hs hstart.1]
  unfold setSpanHashes
  rw [hfind]
  refine ⟨replaces_erase_insert hs rfl, fun h => ?_, fun h => ?_⟩
  · change h ∈ hashes.foldl (fun t h => insert h t) _ ↔ _
    rw [mem_foldl_insert, mem_requested_eraseSpans, erase_start_iff hs]
  · change h ∈ (q.eraseSpans _).haveBlocks ↔ _
    rw [mem_have_eraseSpans, erase_start_iff hs]

end

/-! ## Each call -/

/-- New hashes may take the place of a span's: it has no blocks, and a hash that another span lists
    is among the new ones and not received. -/
def Renewable (q : BlockQueue) (s : Span) (hashes : List Hash) : Prop :=
  s.blocks = [] ∧ ∀ h ∈ s.hashes, ∀ t ∈ q.blocks, t ≠ s → h ∈ t.hashes → h ∈ hashes ∧ t.blocks = []

theorem setSpanHashes_exact (h : Exact idOf q) (hs : s ∈ q.blocks) {hashes : List Hash}
    (hfits : q.Renewable s hashes) :
    Exact idOf (q.setSpanHashes s.startBlockHeight s.connectionId hashes) := by
  rcases setSpanHashes_spec hs hashes with ⟨hrep, hreq, hhave⟩
  rcases hfits with ⟨hnone, hshared⟩
  refine ⟨fun hash => ?_, fun hash => ?_, ?_⟩
  · rw [hreq, h.requested, Lists, Lists, hrep.exists_iff, exists_iff_of_mem hs]
    constructor
    · intro hor
      rcases hor with ⟨hin | hother, hout⟩ | hnew
      · exact absurd hin hout
      · exact Or.inr hother
      · exact Or.inl hnew
    · intro hor
      rcases hor with hnew | ⟨t, ht, hts, hlisted⟩
      · exact Or.inr hnew
      · by_cases hin : hash ∈ s.hashes
        · exact Or.inr (hshared hash hin t ht hts hlisted).1
        · exact Or.inl ⟨Or.inr ⟨t, ht, hts, hlisted⟩, hin⟩
  · rw [hhave, h.received, Holds, Holds, hrep.exists_iff, exists_iff_of_mem hs, hnone]
    refine ⟨And.left, fun hor => ⟨hor, fun hin => ?_⟩⟩
    -- A span that holds the hash lists it, and shares it with the one replaced.
    rcases hor with ⟨e, he, _⟩ | ⟨t, ht, hts, e, he, rfl⟩
    · cases he
    · rw [(hshared _ hin t ht hts (h.mem_hashes ht he)).2] at he
      cases he
  · intro t ht hne
    rcases (hrep t).mp ht with rfl | ⟨ht, _⟩
    · exact absurd hnone hne
    · exact h.filled t ht hne

/-- A new span with neither hashes nor blocks changes nothing that is reported. -/
theorem insertSpan_exact (h : Exact idOf q) (start : UInt64) (id : ConnectionId)
    (addr : NetworkAddress) : Exact idOf (q.insertSpan ⟨start, [], [], id, addr⟩) := by
  by_cases hold : ∃ t ∈ q.blocks, t.startBlockHeight = start
  · rcases hold with ⟨t, ht, hstart⟩
    rw [insertSpan_eq_self ht hstart]
    exact h
  · have hmem := mem_insertSpan (q := q) (s := ⟨start, [], [], id, addr⟩)
      fun t ht heq => hold ⟨t, ht, heq⟩
    refine ⟨fun hash => ?_, fun hash => ?_, ?_⟩
    · change hash ∈ q.requestedHashes ↔ _
      rw [h.requested]
      simp [Lists, hmem]
    · change hash ∈ q.haveBlocks ↔ _
      rw [h.received]
      simp [Holds, hmem]
    · intro t ht hne
      rcases (hmem t).mp ht with rfl | ht
      · exact absurd rfl hne
      · exact h.filled t ht hne

variable {start : UInt64} {id : ConnectionId}

theorem setSpanHashes_eq_self
    (hnone : ∀ s ∈ q.blocks, s.startBlockHeight = start → s.connectionId ≠ id)
    (hashes : List Hash) : q.setSpanHashes start id hashes = q := by
  have hfind : (q.blocks.find? fun s =>
      s.startBlockHeight = start && s.connectionId = id) = none := by
    rw [find?_eq_none]
    intro s hs hboth
    simp only [Bool.and_eq_true, decide_eq_true_eq] at hboth
    exact hnone s hs hboth.1 hboth.2
  unfold setSpanHashes
  rw [hfind]

/-- `set_span_hashes` for whatever span it finds. -/
theorem setSpanHashes_exact_of_fits (h : Exact idOf q) (start : UInt64) (id : ConnectionId)
    (hashes : List Hash) (hfits : ∀ s ∈ q.blocks, s.startBlockHeight = start → s.connectionId = id →
      q.Renewable s hashes) : Exact idOf (q.setSpanHashes start id hashes) := by
  by_cases hsome : ∃ s ∈ q.blocks, s.startBlockHeight = start ∧ s.connectionId = id
  · rcases hsome with ⟨s, hs, rfl, rfl⟩
    exact setSpanHashes_exact h hs (hfits s hs rfl rfl)
  · rw [setSpanHashes_eq_self fun s hs hstart hid => hsome ⟨s, hs, hstart, hid⟩]
    exact h

/-- The span `reserve_span` makes room for can take the hashes, when one that was there can. -/
theorem renewable_insertSpan (addr : NetworkAddress) {hashes : List Hash}
    (hfits : ∀ s ∈ q.blocks, s.startBlockHeight = start → s.connectionId = id →
      q.Renewable s hashes) :
    ∀ s ∈ (q.insertSpan ⟨start, [], [], id, addr⟩).blocks, s.startBlockHeight = start →
      s.connectionId = id → (q.insertSpan ⟨start, [], [], id, addr⟩).Renewable s hashes := by
  by_cases hold : ∃ t ∈ q.blocks, t.startBlockHeight = start
  · rcases hold with ⟨t, ht, hstart⟩
    rw [insertSpan_eq_self ht hstart]
    exact hfits
  · intro s hs hstart _
    rcases (mem_insertSpan (fun t ht heq => hold ⟨t, ht, heq⟩) s).mp hs with rfl | hs
    · refine ⟨rfl, fun hash hin => ?_⟩
      cases hin
    · exact absurd ⟨s, hs, hstart⟩ hold

theorem and_not_or_self {a b : Prop} : (a ∧ ¬ b) ∨ b ↔ a ∨ b := by
  tauto

/-- What `add_blocks` does when there is a span at the height of the blocks. -/
theorem addBlocks_spec (hs : s ∈ q.blocks) (bcel : List BlockCompleteEntry) (id : ConnectionId)
    (addr : NetworkAddress) :
    Replaces q (q.addBlocks s.startBlockHeight bcel id addr) s
        ⟨s.startBlockHeight, s.hashes, bcel, id, addr⟩ ∧
      (∀ h, h ∈ (q.addBlocks s.startBlockHeight bcel id addr).requestedHashes ↔
        h ∈ q.requestedHashes ∨ h ∈ s.hashes) ∧
      ∀ h, h ∈ (q.addBlocks s.startBlockHeight bcel id addr).haveBlocks ↔
        h ∈ q.haveBlocks ∨ h ∈ s.hashes := by
  have hfind : (q.blocks.find? fun t => t.startBlockHeight = s.startBlockHeight) = some s := by
    cases hf : q.blocks.find? fun t => t.startBlockHeight = s.startBlockHeight with
    | none => simpa using find?_eq_none.mp hf s hs
    | some t =>
      rw [eq_of_start (mem_of_find?_eq_some hf) hs (by simpa using find?_some hf)]
  -- The span of the blocks comes without hashes first, and then with those asked for.
  let bare : Span := ⟨s.startBlockHeight, [], bcel, id, addr⟩
  let erased := q.eraseSpans fun t => t.startBlockHeight = s.startBlockHeight
  let inserted : BlockQueue :=
    { (erased.insertSpan bare).request s.hashes with
      haveBlocks := emplaceAll erased.haveBlocks s.startBlockHeight s.hashes }
  have hadd : q.addBlocks s.startBlockHeight bcel id addr =
      inserted.setSpanHashes s.startBlockHeight id s.hashes := by
    unfold addBlocks removeSpan
    rw [hfind]
    rfl
  have hmid : Replaces q inserted s bare := replaces_erase_insert hs rfl
  have hin : bare ∈ inserted.blocks := (hmid bare).mpr (Or.inl rfl)
  rcases setSpanHashes_spec hin s.hashes with ⟨hrep, hreq, hhave⟩
  rw [hadd]
  refine ⟨fun t => ?_, fun hash => ?_, fun hash => ?_⟩
  · rw [hrep t, hmid t]
    refine or_congr_right ⟨fun ht => ht.1.resolve_left ht.2, fun ht => ⟨Or.inr ht, ?_⟩⟩
    rintro rfl
    exact ht.2 (eq_of_start ht.1 hs rfl)
  · have hmem : hash ∈ inserted.requestedHashes ↔ hash ∈ q.requestedHashes ∨ hash ∈ s.hashes := by
      change hash ∈ s.hashes.foldl (fun t h => insert h t) erased.requestedHashes ↔ _
      rw [mem_foldl_insert, mem_requested_eraseSpans, erase_start_iff hs, and_not_or_self]
    rw [hreq, hmem]
    simp [bare]
  · have hmem : hash ∈ inserted.haveBlocks ↔ hash ∈ q.haveBlocks ∨ hash ∈ s.hashes := by
      rw [mem_emplaceAll, mem_have_eraseSpans, erase_start_iff hs, and_not_or_self]
    rw [hhave, hmem]
    simp [bare]

theorem addBlocks_exact (h : Exact idOf q) (hs : s ∈ q.blocks) {bcel : List BlockCompleteEntry}
    (hids : s.hashes = bcel.map idOf) (id : ConnectionId) (addr : NetworkAddress) :
    Exact idOf (q.addBlocks s.startBlockHeight bcel id addr) := by
  rcases addBlocks_spec hs bcel id addr with ⟨hrep, hreq, hhave⟩
  have hblocks : ∀ hash, hash ∈ s.hashes ↔ ∃ e ∈ bcel, idOf e = hash := by
    intro hash
    rw [hids, mem_map]
  refine ⟨fun hash => ?_, fun hash => ?_, ?_⟩
  · rw [hreq, h.requested, Lists, Lists, hrep.exists_iff, exists_iff_of_mem hs]
    exact ⟨fun hor => hor.elim (fun hor => hor) Or.inl, Or.inl⟩
  · rw [hhave, h.received, Holds, Holds, hrep.exists_iff, exists_iff_of_mem hs, ← hblocks]
    constructor
    · intro hor
      rcases hor with (hold | hother) | hnew
      · -- Blocks that are replaced have the hashes of those that come.
        rcases hold with ⟨e, he, rfl⟩
        exact Or.inl (h.mem_hashes hs he)
      · exact Or.inr hother
      · exact Or.inl hnew
    · intro hor
      rcases hor with hnew | hother
      · exact Or.inr hnew
      · exact Or.inl (Or.inr hother)
  · intro t ht hne
    rcases (hrep t).mp ht with rfl | ⟨ht, _⟩
    · exact hids
    · exact h.filled t ht hne

/-! ## Runs -/

/-- A call fits the queue. -/
def Fits (idOf : BlockCompleteEntry → Hash) (q : BlockQueue) : Call → Prop
  | .addBlocks height bcel _ _ =>
    ∃ s ∈ q.blocks, s.startBlockHeight = height ∧ s.hashes = bcel.map idOf
  | .scheduleBlocks _ _ _ _ => True
  | .reserveSpan r =>
    ∀ start hashes, q.chooseSpan r = some (start, hashes) → ∀ s ∈ q.blocks,
      s.startBlockHeight = start → s.connectionId = r.connectionId → q.Renewable s hashes
  | .setSpanHashes start id hashes =>
    ∀ s ∈ q.blocks, s.startBlockHeight = start → s.connectionId = id → q.Renewable s hashes
  | .flushSpans id all => q.Apart fun s => s.connectionId = id && (all || s.blocks.isEmpty)
  | .flushStaleSpans live => q.Apart fun s => s.blocks.isEmpty && s.connectionId ∉ live
  | .removeSpan start => q.Apart fun s => s.startBlockHeight = start
  | .removeSpans id start =>
    q.Apart fun s => s.connectionId = id && decide (s.startBlockHeight ≤ start)

/-- A call that fits and does not throw. -/
def FittingCall (idOf : BlockCompleteEntry → Hash) (q q' : BlockQueue) : Prop :=
  ∃ call : Call, q.Fits idOf call ∧ call.apply q = some q'

theorem removeSpan_exact (h : Exact idOf q) (start : UInt64)
    (hapart : q.Apart fun s => s.startBlockHeight = start) : Exact idOf (q.removeSpan start).2 := by
  unfold removeSpan
  split
  · exact h
  · exact (eraseSpans_exact_iff h _).mpr hapart

theorem reserveSpan_exact (h : Exact idOf q) (r : Reserve)
    (hfits : q.Fits idOf (.reserveSpan r)) : Exact idOf (q.reserveSpan r).2 := by
  unfold reserveSpan
  split
  · exact h
  · rename_i start hashes hchoose
    exact setSpanHashes_exact_of_fits (insertSpan_exact h start r.connectionId r.addr) _ _ _
      (renewable_insertSpan r.addr (hfits start hashes hchoose))

/-- A call that fits keeps the tables right. -/
theorem fits_exact (h : Exact idOf q) (hcall : FittingCall idOf q q') : Exact idOf q' := by
  rcases hcall with ⟨call, hfits, happly⟩
  cases call with
  | addBlocks height bcel id addr =>
    rcases hfits with ⟨s, hs, rfl, hids⟩
    cases happly
    exact addBlocks_exact h hs hids id addr
  | scheduleBlocks height nblocks id addr =>
    change q.scheduleBlocks height nblocks id addr = some q' at happly
    unfold scheduleBlocks at happly
    split_ifs at happly
    cases happly
    exact insertSpan_exact h height id addr
  | reserveSpan r =>
    cases happly
    exact reserveSpan_exact h r hfits
  | setSpanHashes start id hashes =>
    cases happly
    exact setSpanHashes_exact_of_fits h start id hashes hfits
  | flushSpans id all | flushStaleSpans live =>
    cases happly
    exact (eraseSpans_exact_iff h _).mpr hfits
  | removeSpan start =>
    cases happly
    exact removeSpan_exact h start hfits
  | removeSpans id start =>
    cases happly
    exact (eraseSpans_exact_iff h _).mpr hfits

/-- After any calls that fit, a hash is reported as requested exactly when a span lists it, and as
    received exactly when a filled span has a block with it. -/
theorem requested_have_iff (hrun : Run (FittingCall idOf) empty q) (hash : Hash) :
    (q.requested hash = true ↔ ∃ s ∈ q.blocks, hash ∈ s.hashes) ∧ (q.haveHash hash = true ↔
        ∃ s ∈ q.blocks, s.blocks ≠ [] ∧ ∃ e ∈ s.blocks, idOf e = hash) := by
  have hkeeps : Preserves (FittingCall idOf) (Exact idOf) := fun _ _ h hcall => fits_exact h hcall
  have hexact : Exact idOf q := hkeeps.run hrun (empty_exact idOf)
  refine ⟨decide_eq_true_iff.trans (hexact.requested hash), decide_eq_true_iff.trans ?_⟩
  rw [hexact.received hash]
  constructor
  · intro hholds
    rcases hholds with ⟨s, hs, e, he, heq⟩
    exact ⟨s, hs, ne_nil_of_mem he, e, he, heq⟩
  · intro hfilled
    rcases hfilled with ⟨s, hs, _, e, he, heq⟩
    exact ⟨s, hs, e, he, heq⟩

/-! ## What is reserved -/

theorem skipRequested_eq (q : BlockQueue) (l : List (Hash × UInt64)) (height : UInt64) :
    q.skipRequested l height =
      (l.drop (l.takeWhile fun e => q.requested e.1).length,
        height + ofNat (l.takeWhile fun e => q.requested e.1).length) := by
  induction l generalizing height with
  | nil => simp [skipRequested]
  | cons e rest ih =>
    unfold skipRequested
    by_cases hreq : q.requested e.1 = true
    · rw [if_pos hreq, ih, takeWhile_cons, if_pos hreq, length_cons, drop_succ_cons, ofNat_add,
        add_comm (ofNat _), ← add_assoc]
      rfl
    · rw [if_neg hreq, takeWhile_cons, if_neg hreq]
      simp

/-- The first position of an offer, from one on, whose hash was not requested. -/
def newFrom (q : BlockQueue) (l : List (Hash × UInt64)) (i : Nat) : Nat :=
  i + ((l.drop i).takeWhile fun e => q.requested e.1).length

/-- The height of the first hash that is offered. -/
def Reserve.hashesStart (r : Reserve) : UInt64 :=
  r.lastBlockHeight - ofNat r.blockHashes.length + 1

/-- The height from which a span is looked for: that of the first hash that was not requested, or
    the one after it from which the peer has its blocks. -/
def searchFrom (q : BlockQueue) (r : Reserve) : UInt64 :=
  unprunedStart r (r.hashesStart + ofNat (q.newFrom r.blockHashes 0))

/-- The position in the offer at which a span would begin. -/
def position (q : BlockQueue) (r : Reserve) : Nat :=
  q.newFrom r.blockHashes (q.searchFrom r - r.hashesStart).toNat

/-- The height of that position. -/
def heightOf (q : BlockQueue) (r : Reserve) : UInt64 :=
  r.hashesStart + ofNat (q.position r)

/-- The limit, the peer and the node's own pruning allow block `j` of a span. -/
def Reserve.allows (r : Reserve) (start : UInt64) (j : Nat) : Bool :=
  let height := start + ofNat j
  let firstIsPruned := r.syncPrunedBlocks &&
    !Pruning.hasUnprunedBlock start r.blockchainHeight r.localPruningSeed
  ofNat j < r.maxBlocks &&
    (r.syncPrunedBlocks || Pruning.hasUnprunedBlock height r.blockchainHeight r.pruningSeed) &&
    !(r.syncPrunedBlocks && firstIsPruned ==
      Pruning.hasUnprunedBlock height r.blockchainHeight r.localPruningSeed)

/-- The offer is one in which a span is looked for. -/
structure Looks (q : BlockQueue) (r : Reserve) : Prop where
  heights : r.firstBlockHeight ≤ r.lastBlockHeight
  wanted : r.maxBlocks ≠ 0
  fits : ofNat r.blockHashes.length ≤ r.lastBlockHeight
  within : q.searchFrom r < ofNat r.blockHashes.length + r.hashesStart

variable {r : Reserve}

theorem collectSpan_eq (start : UInt64) (l : List (Hash × UInt64)) (n : Nat) :
    collectSpan r start (r.syncPrunedBlocks &&
        !Pruning.hasUnprunedBlock start r.blockchainHeight r.localPruningSeed) l (ofNat n) =
      (l.take ((range' n l.length).takeWhile (r.allows start)).length).map Prod.fst := by
  induction l generalizing n with
  | nil => rfl
  | cons e rest ih =>
    have hnext : (ofNat n : UInt64) + 1 = ofNat (n + 1) := (ofNat_add n 1).symm
    rw [length_cons, range'_succ, collectSpan, hnext, ih]
    cases hallows : r.allows start n with
    | true =>
      rw [takeWhile_cons_of_pos hallows, length_cons, take_succ_cons, map_cons]
      simp only [Reserve.allows, Bool.and_eq_true, Bool.not_eq_true'] at hallows
      rw [if_pos (by simpa using hallows.1), if_neg (by simp [hallows.2])]
    | false =>
      rw [takeWhile_cons_of_neg (by simp [hallows])]
      simp only [Reserve.allows] at hallows
      split_ifs with hgo hstop
      · rfl
      · rw [Bool.and_eq_true] at hgo
        simp [hgo, hstop] at hallows
      · rfl

/-- How far a span that begins at the position goes. -/
def reach (q : BlockQueue) (r : Reserve) : Nat :=
  ((range' 0 (r.blockHashes.length - q.position r)).takeWhile (r.allows (q.heightOf r))).length

theorem lt_length_takeWhile_iff (p : Nat → Bool) (start len j : Nat) :
    j < ((range' start len).takeWhile p).length ↔ j < len ∧ ∀ i ≤ j, p (start + i) = true := by
  induction len generalizing start j with
  | zero => simp
  | succ len ih =>
    rw [range'_succ]
    by_cases hstart : p start = true
    · rw [takeWhile_cons, if_pos hstart, length_cons]
      cases j with
      | zero => simpa using hstart
      | succ j =>
        rw [Nat.succ_lt_succ_iff, ih, Nat.succ_lt_succ_iff]
        refine and_congr_right fun _ => ⟨fun h i hi => ?_, fun h i hi => ?_⟩
        · cases i with
          | zero => exact hstart
          | succ i =>
            have hi' := h i (by omega)
            rwa [Nat.add_right_comm, Nat.add_assoc] at hi'
        · have hi' := h (i + 1) (by omega)
          rwa [Nat.add_right_comm, Nat.add_assoc]
    · rw [takeWhile_cons, if_neg hstart]
      exact iff_of_false (by simp) fun h => hstart (h.2 0 (Nat.zero_le j))

theorem lt_reach_iff (q : BlockQueue) (r : Reserve) (j : Nat) : j < q.reach r ↔
    q.position r + j < r.blockHashes.length ∧ ∀ i ≤ j, r.allows (q.heightOf r) i = true := by
  rw [reach, lt_length_takeWhile_iff]
  simp only [Nat.zero_add, Nat.lt_sub_iff_add_lt']

theorem chooseSpan_eq (q : BlockQueue) (r : Reserve) :
    (¬ q.Looks r → q.chooseSpan r = none) ∧ (q.Looks r → q.chooseSpan r =
      if q.reach r = 0 then none
      else some (q.heightOf r,
        ((r.blockHashes.drop (q.position r)).take (q.reach r)).map Prod.fst)) := by
  have hsearch : unprunedStart r (q.skipRequested r.blockHashes r.hashesStart).2 =
      q.searchFrom r := by
    rw [skipRequested_eq, searchFrom, newFrom, drop_zero, Nat.zero_add]
  -- The position is where the second search stops.
  have hrest : q.skipRequested (r.blockHashes.drop (q.searchFrom r - r.hashesStart).toNat)
      (q.searchFrom r) = (r.blockHashes.drop (q.position r), q.heightOf r) := by
    rw [skipRequested_eq, drop_drop, heightOf, position, newFrom, ofNat_add,
      UInt64.ofNat_toNat, ← add_assoc, UInt64.add_comm r.hashesStart, UInt64.sub_add_cancel]
  have hcollect := collectSpan_eq (r := r) (q.heightOf r) (r.blockHashes.drop (q.position r)) 0
  rw [length_drop] at hcollect
  change collectSpan _ _ _ _ 0 = (take (q.reach r) _).map _ at hcollect
  have hlooks : q.Looks r ↔ ¬ (r.lastBlockHeight < r.firstBlockHeight || r.maxBlocks = 0) = true ∧
      ¬ UInt64.ofNat r.blockHashes.length > r.lastBlockHeight ∧
      ¬ q.searchFrom r ≥ UInt64.ofNat r.blockHashes.length + r.hashesStart := by
    simp only [Bool.or_eq_true, decide_eq_true_eq, not_or, gt_iff_lt, ge_iff_le, UInt64.not_lt,
      UInt64.not_le]
    exact ⟨fun h => ⟨⟨h.heights, h.wanted⟩, h.fits, h.within⟩,
      fun h => ⟨h.1.1, h.1.2, h.2.1, h.2.2⟩⟩
  have hhashes : take (q.reach r) (r.blockHashes.drop (q.position r)) = [] ↔ q.reach r = 0 := by
    rw [← length_eq_zero_iff, length_take, length_drop]
    have := lt_reach_iff q r (q.reach r - 1)
    omega
  rw [hlooks]
  simp only [chooseSpan]
  rw [← Reserve.hashesStart, hsearch, hrest]
  simp only [hcollect, map_eq_nil_iff, hhashes]
  refine ⟨fun hnot => ?_, fun ⟨hheights, hfits, hwithin⟩ => ?_⟩
  · split_ifs with hheights hfits hwithin
    · rfl
    · rfl
    · rfl
    · exact absurd ⟨hheights, hfits, hwithin⟩ hnot
    · exact absurd ⟨hheights, hfits, hwithin⟩ hnot
  · rw [if_neg hheights, if_neg hfits, if_neg hwithin]

/-- After a span was inserted and given its hashes, the queue has such a span unless one of another
    connection was there. -/
theorem exists_reserved_iff (q : BlockQueue) (start : UInt64) (id : ConnectionId)
    (addr : NetworkAddress) (hashes : List Hash) (P : List Hash → Prop) :
    (∃ s ∈ ((q.insertSpan ⟨start, [], [], id, addr⟩).setSpanHashes start id hashes).blocks,
        s.startBlockHeight = start ∧ s.connectionId = id ∧ P s.hashes) ↔
      (∀ s ∈ q.blocks, s.startBlockHeight = start → s.connectionId = id) ∧ P hashes := by
  by_cases hown : ∀ s ∈ q.blocks, s.startBlockHeight = start → s.connectionId = id
  · have hroom : ∃ s ∈ (q.insertSpan ⟨start, [], [], id, addr⟩).blocks,
        s.startBlockHeight = start ∧ s.connectionId = id := by
      by_cases hold : ∃ t ∈ q.blocks, t.startBlockHeight = start
      · rcases hold with ⟨t, ht, heq⟩
        rw [insertSpan_eq_self ht heq]
        exact ⟨t, ht, heq, hown t ht heq⟩
      · exact ⟨_, (mem_insertSpan (fun t ht heq => hold ⟨t, ht, heq⟩) _).mpr (Or.inl rfl), rfl, rfl⟩
    rcases hroom with ⟨s, hs, rfl, rfl⟩
    rcases setSpanHashes_spec hs hashes with ⟨hrep, -⟩
    rw [and_iff_right hown]
    constructor
    · rintro ⟨t, ht, hstart, -, hP⟩
      rcases (hrep t).mp ht with rfl | ⟨hin, hne⟩
      · exact hP
      · exact absurd (eq_of_start hin hs hstart) hne
    · exact fun hP => ⟨_, (hrep _).mpr (Or.inl rfl), rfl, rfl, hP⟩
  · refine iff_of_false ?_ fun h => hown h.1
    push Not at hown
    rcases hown with ⟨t, ht, heq, hother⟩
    -- The other span stays as it is.
    rw [insertSpan_eq_self ht heq, setSpanHashes_eq_self]
    · rintro ⟨s, hs, hstart, hid, -⟩
      exact hother (eq_of_start hs ht (hstart.trans heq.symm) ▸ hid)
    · intro s hs hstart
      rwa [eq_of_start hs ht (hstart.trans heq.symm)]

/-- What is promised of a span that `reserve_span` returns: it is in the queue, for the connection,
    with the slice of the hashes given that belongs to its heights, none of which was requested. It
    is not too long, it does not start too low, and the peer has its blocks. -/
def Promised (q : BlockQueue) (r : Reserve) : Prop :=
  let start := (q.reserveSpan r).1.1
  let n := (q.reserveSpan r).1.2
  (∃ s ∈ (q.reserveSpan r).2.blocks, s.startBlockHeight = start ∧ s.connectionId = r.connectionId ∧
    s.hashes = ((r.blockHashes.drop (start.toNat + r.blockHashes.length -
      (r.lastBlockHeight.toNat + 1))).take n.toNat).map Prod.fst ∧
    s.hashes.length = n.toNat ∧ ∀ h ∈ s.hashes, q.requested h = false) ∧
  n ≤ r.maxBlocks ∧ r.firstBlockHeight ≤ start ∧
  ∀ i < n.toNat, r.syncPrunedBlocks = true ∨
    Pruning.hasUnprunedBlock (start + ofNat i) r.blockchainHeight r.pruningSeed = true

/-- What `reserve_span` returns is as promised exactly when, if it finds a span at all, the span
    does not start below the first height, no span of another connection starts there, and none of
    the hashes it reaches was requested: only the requested ones in front of them are skipped. -/
theorem reserveSpan_slice_iff (q : BlockQueue) (r : Reserve)
    (hlen : r.blockHashes.length < 2 ^ 64) :
    ((q.reserveSpan r).1 = (0, 0) → (q.reserveSpan r).2 = q) ∧
      ((0 < (q.reserveSpan r).1.2 → q.Promised r) ↔
        (q.Looks r → ∀ j, q.position r + j < r.blockHashes.length →
          (∀ i ≤ j, r.allows (q.heightOf r) i = true) →
            r.firstBlockHeight ≤ q.heightOf r ∧
            (∀ s ∈ q.blocks, s.startBlockHeight = q.heightOf r → s.connectionId = r.connectionId) ∧
            ∀ e, r.blockHashes[q.position r + j]? = some e → q.requested e.1 = false)) := by
  have hnothing : q.chooseSpan r = none → q.reserveSpan r = ((0, 0), q) := fun h => by
    rw [reserveSpan, h]
  rcases chooseSpan_eq q r with ⟨hnot, hlooks⟩
  by_cases hlook : q.Looks r
  case neg =>
    rw [hnothing (hnot hlook)]
    exact ⟨fun _ => rfl, iff_of_true (fun h => absurd h (lt_irrefl 0)) fun h => absurd h hlook⟩
  have hreach : ∀ j, _ ↔ _ := lt_reach_iff q r
  by_cases hzero : q.reach r = 0
  · rw [hnothing (by rw [hlooks hlook, if_pos hzero])]
    refine ⟨fun _ => rfl, iff_of_true (fun h => absurd h (lt_irrefl 0)) fun _ j hj hall => ?_⟩
    have := (hreach j).mpr ⟨hj, hall⟩
    omega
  have hchoose := hlooks hlook
  rw [if_neg hzero] at hchoose
  have hpos : 0 < q.reach r := Nat.pos_of_ne_zero hzero
  rcases (hreach (q.reach r - 1)).mp (by omega) with ⟨hroom, hall⟩
  have hword : (ofNat (q.reach r) : UInt64).toNat = q.reach r :=
    toNat_ofNat_of_lt' (show q.reach r < 2 ^ 64 by omega)
  have hmax : q.reach r ≤ r.maxBlocks.toNat := by
    have hlast := hall _ le_rfl
    simp only [Reserve.allows, Bool.and_eq_true, decide_eq_true_eq, lt_iff_toNat_lt] at hlast
    rw [toNat_ofNat_of_lt' (show q.reach r - 1 < 2 ^ 64 by omega)] at hlast
    omega
  have hstart : (q.heightOf r).toNat + r.blockHashes.length = r.lastBlockHeight.toNat + 1 +
      q.position r := by
    have hfits := hlook.fits
    have hlast := r.lastBlockHeight.toNat_lt
    rw [le_iff_toNat_le, toNat_ofNat_of_lt' (show r.blockHashes.length < 2 ^ 64 from hlen)] at hfits
    simp only [heightOf, Reserve.hashesStart, UInt64.toNat_add, UInt64.toNat_sub,
      UInt64.toNat_ofNat', UInt64.toNat_one]
    omega
  set hashes := ((r.blockHashes.drop (q.position r)).take (q.reach r)).map Prod.fst with hhashes
  have hlength : hashes.length = q.reach r := by
    rw [hhashes, length_map, length_take, length_drop]
    omega
  have hplace : (q.heightOf r).toNat + r.blockHashes.length - (r.lastBlockHeight.toNat + 1) =
      q.position r := by omega
  have hpeer : ∀ i < q.reach r, r.syncPrunedBlocks = true ∨ Pruning.hasUnprunedBlock
      (q.heightOf r + ofNat i) r.blockchainHeight r.pruningSeed = true := by
    intro i hi
    have hallowed := hall i (by omega)
    simp only [Reserve.allows, Bool.and_eq_true, Bool.or_eq_true] at hallowed
    exact hallowed.1.2
  have hnew : (∀ h ∈ hashes, q.requested h = false) ↔ ∀ j < q.reach r, ∀ e,
      r.blockHashes[q.position r + j]? = some e → q.requested e.1 = false := by
    have hget : ∀ j < q.reach r, ((r.blockHashes.drop (q.position r)).take (q.reach r))[j]? =
        r.blockHashes[q.position r + j]? := fun j hj => by
      rw [getElem?_take_of_lt hj, getElem?_drop]
    rw [hhashes, forall_mem_map]
    constructor
    · intro h j hj e he
      exact h e (mem_of_getElem? ((hget j hj).trans he))
    · intro h e he
      rcases mem_iff_getElem?.mp he with ⟨j, hj⟩
      have hlt := (List.getElem?_eq_some_iff.mp hj).1
      rw [length_take] at hlt
      exact h j (by omega) e ((hget j (by omega)).symm.trans hj)
  have hreserve : q.reserveSpan r = ((q.heightOf r, ofNat (q.reach r)),
      (q.insertSpan ⟨q.heightOf r, [], [], r.connectionId, r.addr⟩).setSpanHashes (q.heightOf r)
        r.connectionId hashes) := by
    rw [reserveSpan, hchoose, ← hlength]
  rw [Promised, hreserve]
  simp only [hword, hplace]
  rw [exists_reserved_iff q _ _ _ _ fun hs => hs = hashes ∧ hs.length = _ ∧
    ∀ h ∈ hs, q.requested h = false, hnew]
  have hn : (0 : UInt64) < ofNat (q.reach r) := by
    rw [lt_iff_toNat_lt, hword]
    exact hpos
  refine ⟨fun heq => ?_, fun h _ j hj hallowed => ?_, fun h _ => ?_⟩
  · rw [Prod.mk.injEq] at heq
    exact absurd (heq.2 ▸ hn) (lt_irrefl 0)
  · rcases h hn with ⟨⟨hown, -, -, hunrequested⟩, -, hfirst, -⟩
    exact ⟨hfirst, hown, hunrequested j ((hreach j).mpr ⟨hj, hallowed⟩)⟩
  · have hgo := fun j hj => h hlook j ((hreach j).mp hj).1 ((hreach j).mp hj).2
    rcases hgo 0 hpos with ⟨hfirst, hown, -⟩
    refine ⟨⟨hown, rfl, hlength, fun j hj => (hgo j hj).2.2⟩, ?_, hfirst, hpeer⟩
    rw [le_iff_toNat_le, hword]
    exact hmax

end

/-! ## Runs of a few calls -/

/-- A request for at most so many of three blocks, by one of three peers. -/
def offer (peer maxBlocks : Nat) : Reserve where
  firstBlockHeight := 1
  lastBlockHeight := 3
  maxBlocks := ofNat maxBlocks
  connectionId := BitVec.ofNat 128 peer
  addr := ⟨[], 0⟩
  syncPrunedBlocks := false
  localPruningSeed := 0
  pruningSeed := 0
  blockchainHeight := 4
  blockHashes := [(1, 1), (2, 1), (3, 1)]

/-- A span reserved, and filled with a block of its hash. -/
theorem requested_have_iff_filled :
    ∃ q, Run (FittingCall fun e => BitVec.ofNat 256 e.block.length) empty q ∧
      q.haveHash 1 = true ∧ ((q.haveHash 2 = true) ↔ ∃ s ∈ q.blocks, s.blocks ≠ [] ∧
        ∃ e ∈ s.blocks, BitVec.ofNat 256 e.block.length = (2 : Hash)) := by
  have hrun : Run (FittingCall fun e => BitVec.ofNat 256 e.block.length) empty
      ((empty.reserveSpan (offer 1 1)).2.addBlocks 1 [⟨false, [0], []⟩] 1 ⟨[], 0⟩) := by
    refine .tail (.tail .refl ⟨.reserveSpan (offer 1 1), ?_, rfl⟩)
      ⟨.addBlocks 1 _ 1 ⟨[], 0⟩, ?_, rfl⟩
    · intro start hashes _ s hs
      cases hs
    · exact ⟨⟨1, [1], [], 1, ⟨[], 0⟩⟩, by decide +kernel, rfl, by decide +kernel⟩
  exact ⟨_, hrun, by decide +kernel, (requested_have_iff hrun 2).2⟩

/-- Two peers have reserved a block each and the first is dropped, a third reserves all three, and
    then the second is dropped: its hash is no longer requested, and the third's span lists it. -/
theorem listed_not_requested :
    ∃ q, [Call.reserveSpan (offer 1 1), .reserveSpan (offer 2 1), .flushSpans 1 true,
        .reserveSpan (offer 3 3), .flushSpans 2 true].foldlM Call.apply empty = some q ∧
      q.requested 2 = false ∧ ∃ s ∈ q.blocks, (2 : Hash) ∈ s.hashes := by
  refine ⟨_, rfl, by decide +kernel, ⟨1, [1, 2, 3], [], 3, ⟨[], 0⟩⟩, ?_, ?_⟩
  · decide +kernel
  · decide +kernel

/-- One hash was requested, and the span of a second peer begins after it. -/
theorem reserveSpan_slice_iff_second :
    ∃ q, [Call.reserveSpan (offer 1 1)].foldlM Call.apply empty = some q ∧
      (q.reserveSpan (offer 2 3)).1 = (2, 2) ∧ q.Promised (offer 2 3) := by
  refine ⟨_, rfl, by decide +kernel, ?_⟩
  refine (reserveSpan_slice_iff (empty.reserveSpan (offer 1 1)).2 (offer 2 3) (by decide)).2.mpr
    (fun _ j hj _ => ?_) (by decide +kernel)
  have hposition : (empty.reserveSpan (offer 1 1)).2.position (offer 2 3) = 1 := by decide +kernel
  refine ⟨by decide +kernel, by decide +kernel, ?_⟩
  rw [hposition] at hj ⊢
  have hj : j < 2 := Nat.lt_of_add_lt_add_left (n := 1) hj
  rcases j with _ | _ | j
  · rintro e ⟨⟩
    decide +kernel
  · rintro e ⟨⟩
    decide +kernel
  · omega

/-- Two peers have reserved a block each and the first is dropped. A third is given both, though
    the second one is requested. -/
theorem reserveSpan_twice : ∃ q, [Call.reserveSpan (offer 1 1), .reserveSpan (offer 2 1),
        .flushSpans 1 true].foldlM Call.apply empty = some q ∧
      (q.reserveSpan (offer 3 3)).1 = (1, 3) ∧ q.requested 2 = true ∧
      ∃ s ∈ (q.reserveSpan (offer 3 3)).2.blocks, s.startBlockHeight = 1 ∧
        (2 : Hash) ∈ s.hashes := by
  refine ⟨_, rfl, by decide +kernel, by decide +kernel, ⟨1, [1, 2, 3], [], 3, ⟨[], 0⟩⟩, ?_, rfl, ?_⟩
  · decide +kernel
  · decide +kernel

/-! ## The first gap -/

/-- A height is one of a span's blocks. -/
def Covers (nblocks : Span → UInt64) (s : Span) (h : Nat) : Prop :=
  s.startBlockHeight.toNat ≤ h ∧ h < s.startBlockHeight.toNat + (nblocks s).toNat

/-- The heights from one on that no span covers. -/
def Needed (nblocks : Span → UInt64) (l : List Span) (c : UInt64) : Set Nat :=
  {h | c.toNat ≤ h ∧ ∀ s ∈ l, ¬ Covers nblocks s h}

/-- Everything below `c` and from the chain height on is covered: the loop finds the next gap. -/
theorem coverSpans_isLeast {nblocks : Span → UInt64} {bh c : UInt64} (hc : bh ≤ c) (l : List Span)
    (hsorted : l.Pairwise fun a b => a.startBlockHeight < b.startBlockHeight)
    (hfits : ∀ s ∈ l, s.startBlockHeight.toNat + (nblocks s).toNat < 2 ^ 64) :
    IsLeast (Needed nblocks l c) (coverSpans nblocks bh l c).toNat := by
  induction l generalizing c with
  | nil => exact ⟨⟨le_rfl, by simp⟩, fun h hh => hh.1⟩
  | cons s rest ih =>
    rw [pairwise_cons] at hsorted
    rw [forall_mem_cons] at hfits
    have hend : (s.startBlockHeight + nblocks s).toNat =
        s.startBlockHeight.toNat + (nblocks s).toNat := by
      rw [UInt64.toNat_add, Nat.mod_eq_of_lt hfits.1]
    -- what the head decides about the heights that are needed
    have hset {d : UInt64} (hd : ∀ h : Nat, c.toNat ≤ h ∧ ¬ Covers nblocks s h ↔ d.toNat ≤ h) :
        Needed nblocks (s :: rest) c = Needed nblocks rest d := by
      ext h
      simp only [Needed, Set.mem_ofPred_eq, forall_mem_cons, ← and_assoc, hd]
    rw [coverSpans]
    rw [le_iff_toNat_le] at hc
    split_ifs with hbelow hgap
    · -- the span ends below the chain height
      rw [hset (d := c)]
      · exact ih (le_iff_toNat_le.mpr hc) hsorted.2 hfits.2
      · intro h
        have hle : s.startBlockHeight.toNat + (nblocks s).toNat ≤ bh.toNat := by
          rw [lt_iff_toNat_lt, UInt64.toNat_sub, hend, UInt64.toNat_one] at hbelow
          omega
        unfold Covers
        omega
    · -- the spans are in order, so none behind this one covers `c` either
      rw [gt_iff_lt, lt_iff_toNat_lt] at hgap
      refine ⟨⟨le_rfl, forall_mem_cons.mpr ⟨fun hcov => ?_, fun t ht hcov => ?_⟩⟩, fun h hh => hh.1⟩
      · exact Nat.not_le.mpr hgap hcov.1
      · exact Nat.not_le.mpr (hgap.trans (lt_iff_toNat_lt.mp (hsorted.1 t ht))) hcov.1
    · rw [gt_iff_lt, lt_iff_toNat_lt] at hgap
      have hmax : (max c (s.startBlockHeight + nblocks s)).toNat =
          max c.toNat (s.startBlockHeight.toNat + (nblocks s).toNat) := by
        rw [← hend]
        change (if c ≤ s.startBlockHeight + nblocks s then _ else c).toNat = _
        split_ifs with hle <;> rw [le_iff_toNat_le] at hle <;> omega
      rw [hset (d := max c (s.startBlockHeight + nblocks s))]
      · exact ih (by rw [le_iff_toNat_le, hmax]; omega) hsorted.2 hfits.2
      · intro h
        rw [hmax]
        unfold Covers
        omega

/-- The next needed height is the least one from the chain height on that no span covers. -/
theorem getNextNeededHeight_isLeast (q : BlockQueue) (nblocks : Span → UInt64) (bh : UInt64)
    (hfits : ∀ s ∈ q.blocks, s.startBlockHeight.toNat + (nblocks s).toNat < 2 ^ 64) :
    IsLeast {h : Nat | bh.toNat ≤ h ∧ ∀ s ∈ q.blocks, ¬ Covers nblocks s h}
      (q.getNextNeededHeight nblocks bh).toNat := by
  have hleast := coverSpans_isLeast (UInt64.le_refl bh) q.blocks q.sorted hfits
  rw [getNextNeededHeight]
  split_ifs with hempty
  · rwa [isEmpty_iff.mp hempty] at hleast ⊢
  · exact hleast

/-- A queue with one span, of a connection that has not answered. -/
def oneSpan (start : UInt64) : BlockQueue :=
  empty.insertSpan ⟨start, [], [], 0, ⟨[], 0⟩⟩

/-- Blocks 5 to 7, 8 to 10 and 20 to 22 are on their way to a node of height 6: block 11 is
    needed. -/
theorem getNextNeededHeight_behind_spans :
    let q := ((oneSpan 20).insertSpan ⟨5, [], [], 0, ⟨[], 0⟩⟩).insertSpan ⟨8, [], [], 0, ⟨[], 1⟩⟩
    q.getNextNeededHeight (fun _ => 3) 6 = 11 ∧
      IsLeast {h : Nat | 6 ≤ h ∧ ∀ s ∈ q.blocks, ¬ Covers (fun _ => 3) s h} 11 :=
  ⟨by decide, getNextNeededHeight_isLeast _ (fun _ => 3) 6 (by decide)⟩

/-- The last height of all: the end of its span wraps to 0, and it is needed although covered. -/
theorem getNextNeededHeight_covered : ∃ s ∈ (oneSpan (2 ^ 64 - 1)).blocks,
    Covers (fun _ => 1) s
      ((oneSpan (2 ^ 64 - 1)).getNextNeededHeight (fun _ => 1) (2 ^ 64 - 1)).toNat := by
  unfold Covers
  decide +kernel

end BlockQueue

end CocaineNode
