import CocaineNode.Theory.Difficulty
import CocaineNode.Theory.Moves

/-!
# Work behind a Cache

The difficulty of the next block is kept with the id of the top block, and the
window it was computed from with the height of the chain. A cache that is keyed
by the id of a block is right as long as the id determines what was cached.
`Recorded` is about chains whose records follow a rule, and `Recorded.unique`
says that the last id determines whatever the rule does. For the work the rule
is that of the difficulty, with a block-time target for each parent.

`WorkKept` is what a node keeps of its chain and its cache. The answer belongs to
some chain the node has seen. The window is only shifted, when the chain has
grown by one block, so it has to belong to a beginning of the chain. That is so
as long as blocks leave the chain by pops, since a pop drops the window. Where
an aborted batch puts the database back it may also belong to an extension.

## Theorems

* `Recorded.unique`: The last id determines what the rule does.
* `WorkKept.answer`: The caches do not show.
-/

namespace CocaineNode

open List StoredBlock

open Transition Blockchain

/-- No two blocks of a log share an id, and none has the null hash. -/
structure CollisionFree (E : Externals) (log : List Block) : Prop where
  inj : ∀ a ∈ log, ∀ b ∈ log, E.blockHash a = E.blockHash b → a = b
  ne_null : ∀ a ∈ log, E.blockHash a ≠ nullHash

theorem CollisionFree.mono {E : Externals} {log log' : List Block} (h : log ⊆ log')
    (hfree : CollisionFree E log') : CollisionFree E log :=
  ⟨fun a ha b hb => hfree.inj a (h ha) b (h hb), fun a ha => hfree.ne_null a (h ha)⟩

/-! ## Chains of records -/

/-- The id of the last record, or the null hash. -/
def lastId (bs : List StoredBlock) : Hash :=
  (bs.getLast?.map hash).getD nullHash

theorem lastId_concat (bs : List StoredBlock) (b : StoredBlock) : lastId (bs ++ [b]) = b.hash := by
  rw [lastId, getLast?_concat]
  rfl

/-- Every record has the id of its block and follows the one below it, and obeys a rule that looks
    at the records below. -/
inductive Recorded (E : Externals) (R : List StoredBlock → StoredBlock → Prop) :
    List StoredBlock → Prop
  | nil : Recorded E R []
  | concat (bs : List StoredBlock) (b : StoredBlock) : Recorded E R bs →
      b.hash = E.blockHash b.block → b.block.prevId = lastId bs → R bs b → Recorded E R (bs ++ [b])

theorem Recorded.dropLast {E : Externals} {R : List StoredBlock → StoredBlock → Prop}
    {bs : List StoredBlock} (h : Recorded E R bs) : Recorded E R bs.dropLast := by
  cases h with
  | nil => exact Recorded.nil
  | concat bs b hbs _ _ _ =>
    rw [dropLast_concat]
    exact hbs

/-- Every record obeys the rule, given those below it. -/
theorem Recorded.rule {E : Externals} {R : List StoredBlock → StoredBlock → Prop}
    {bs : List StoredBlock} (h : Recorded E R bs) {i : Nat} {b : StoredBlock}
    (hb : bs[i]? = some b) : R (bs.take i) b := by
  induction h with
  | nil => cases hb
  | concat bs c _ _ _ hrule ih =>
    rcases lt_or_ge i bs.length with hlt | hge
    · rw [getElem?_append_left hlt] at hb
      rw [take_append_of_le_length (le_of_lt hlt)]
      exact ih hb
    · -- The last record.
      rw [getElem?_append_right hge, getElem?_singleton] at hb
      split_ifs at hb with hlast
      rw [← Option.some.inj hb, take_append_of_le_length (by omega), take_of_length_le hge]
      exact hrule

section Unique

variable {E : Externals} {R : List StoredBlock → StoredBlock → Prop} {log : List StoredBlock}
  {β : Type} (f : StoredBlock → β)

/-- What a rule determines, once the blocks are known and the same is known of those below. -/
def Determines (R : List StoredBlock → StoredBlock → Prop) (log : List StoredBlock) : Prop :=
  ∀ bs cs b c, bs.map f = cs.map f → b ∈ log → c ∈ log → b.block = c.block → R bs b → R cs c →
    f b = f c

/-- The last id determines the blocks of a chain, and whatever the rule does. -/
theorem Recorded.unique (hfree : CollisionFree E (log.map StoredBlock.block))
    (hdet : Determines f R log) {bs cs : List StoredBlock} (hbs : Recorded E R bs)
    (hcs : Recorded E R cs) (hb : ∀ b ∈ bs, b ∈ log) (hc : ∀ c ∈ cs, c ∈ log)
    (hlast : lastId bs = lastId cs) : bs.map f = cs.map f := by
  have hmem : ∀ {b : StoredBlock}, b ∈ log → b.block ∈ log.map block :=
    mem_map_of_mem
  induction hbs generalizing cs with
  | nil =>
    cases hcs with
    | nil => rfl
    | concat cs c _ hhash _ _ =>
      rw [lastId_concat, hhash] at hlast
      exact absurd hlast.symm (hfree.ne_null _ (hmem (hc c (by simp))))
  | concat bs b _ hhash hparent hrule ih =>
    cases hcs with
    | nil =>
      rw [lastId_concat, hhash] at hlast
      exact absurd hlast (hfree.ne_null _ (hmem (hb b (by simp))))
    | concat cs c hrest hhash' hparent' hrule' =>
      rw [lastId_concat, lastId_concat, hhash, hhash'] at hlast
      have hbc : b.block = c.block :=
        hfree.inj _ (hmem (hb b (by simp))) _ (hmem (hc c (by simp))) hlast
      -- The two parents are named by one block, so the parts below have one last id.
      have hbelow := ih hrest (fun x hx => hb x (by simp [hx])) (fun x hx => hc x (by simp [hx]))
        (by rw [← hparent, ← hparent', hbc])
      rw [map_append, map_append, map_singleton, map_singleton, hbelow,
        hdet bs cs b c hbelow (hb b (by simp)) (hc c (by simp)) hbc hrule hrule']

end Unique

/-- A chain of recorded blocks that the node has seen. -/
structure Known (E : Externals) (R : List StoredBlock → StoredBlock → Prop)
    (log bs : List StoredBlock) : Prop where
  recorded : Recorded E R bs
  logged : ∀ b ∈ bs, b ∈ log

namespace Known

variable {E : Externals} {R : List StoredBlock → StoredBlock → Prop} {log bs : List StoredBlock}

theorem nil : Known E R log [] :=
  ⟨Recorded.nil, fun _ hb => absurd hb not_mem_nil⟩

theorem cons_log (h : Known E R log bs) (b : StoredBlock) : Known E R (b :: log) bs :=
  ⟨h.recorded, fun c hc => mem_cons_of_mem _ (h.logged c hc)⟩

theorem dropLast (h : Known E R log bs) : Known E R log bs.dropLast :=
  ⟨h.recorded.dropLast, fun b hb => h.logged b (mem_of_mem_dropLast hb)⟩

theorem concat (h : Known E R log bs) {b : StoredBlock} (hhash : b.hash = E.blockHash b.block)
    (hparent : b.block.prevId = lastId bs) (hrule : R bs b) : Known E R (b :: log) (bs ++ [b]) := by
  refine ⟨Recorded.concat bs b h.recorded hhash hparent hrule, forall_mem_append.mpr ⟨?_, ?_⟩⟩
  · exact (h.cons_log b).logged
  · exact forall_mem_singleton.mpr mem_cons_self

end Known

/-! ## The work of a chain -/

/-- What the difficulty rule reads of a stored block. -/
def StoredBlock.work (b : StoredBlock) : UInt64 × Difficulty :=
  (b.block.timestamp, b.cumulativeDifficulty)

/-- The windows are those of the chain if, whenever they are shifted, they were those of the chain
    without its top block. -/
theorem nextWindows_of_below {db : BlockchainDB} {c : DifficultyCache}
    (hbelow : c.resetTimestampsAndDifficultiesHeight = false →
      c.timestampsAndDifficultiesHeight ≠ 0 → db.height = c.timestampsAndDifficultiesHeight + 1 →
        (c.timestamps, c.difficulties) =
          (windowBlocks (db.blocks.dropLast.map work)).unzip) :
    nextWindows db c = (windowBlocks (db.blocks.map work)).unzip := by
  unfold nextWindows
  rcases eq_nil_or_concat db.blocks with hnil | ⟨init, top, hconcat⟩
  · rw [hnil]
    rfl
  · rw [concat_eq_append] at hconcat
    simp only [hconcat, getLast?_concat]
    generalize hval : (if c.resetTimestampsAndDifficultiesHeight = true then 0
      else c.timestampsAndDifficultiesHeight) = known
    split
    · rename_i hshift
      rcases hshift with ⟨hknown, hheight, hfull⟩
      -- The cache is for the chain without its top block.
      have hcached : c.resetTimestampsAndDifficultiesHeight = false ∧
          c.timestampsAndDifficultiesHeight = known := by
        split at hval
        · exact absurd hval.symm hknown
        · rename_i hkept
          exact ⟨by simpa using hkept, hval⟩
      rw [← hcached.2] at hknown hheight
      have hwindow := hbelow hcached.1 hknown hheight
      rw [hconcat, dropLast_concat, unzip_eq_map, Prod.mk.injEq] at hwindow
      rcases hwindow with ⟨htimestamps, hdifficulties⟩
      rw [htimestamps, length_map] at hfull
      have hne : init.map work ≠ [] := by
        intro hnil
        rw [hnil] at hfull
        exact absurd hfull (by decide)
      rw [map_append, map_singleton, windowBlocks_concat _ _ hne, unzip_eq_map,
        htimestamps, hdifficulties]
      simp only [map_drop, map_append, map_singleton, length_append, length_map, length_singleton]
      rfl
    · rw [windowBlocks_map, unzip_eq_map, map_map, map_map]
      rfl

/-- The work of a record, with a block-time target for each parent. -/
def WorkRule (target : Hash → Nat) (bs : List StoredBlock) (b : StoredBlock) : Prop :=
  b.cumulativeDifficulty = nextWork (target b.block.prevId) (bs.map work) +
    lastWork (bs.map work)

theorem workRule_determines (target : Hash → Nat) (log : List StoredBlock) :
    Determines work (WorkRule target) log := by
  intro bs cs b c hbelow _ _ hblock hrule hrule'
  rw [work, work, hrule, hrule', hbelow, hblock]

/-! ## The cache -/

/-- What the cache was filled for: a chain the node has seen, under the target of its top block. -/
structure DifficultyReady (E : Externals) (target : Hash → Nat) (log : List StoredBlock)
    (c : DifficultyCache) (cs : List StoredBlock) : Prop where
  known : Known E (WorkRule target) log cs
  top : c.difficultyForNextBlockTopHash = lastId cs
  answer : c.difficultyForNextBlock = nextWork (target (lastId cs)) (cs.map work)
  window : c.timestampsAndDifficultiesHeight ≠ 0 → c.timestampsAndDifficultiesHeight = cs.length ∧
      (c.timestamps, c.difficulties) = (windowBlocks (cs.map work)).unzip

/-- One of two lists begins with the other. -/
def Comparable {α : Type} (l l' : List α) : Prop :=
  l <+: l' ∨ l' <+: l

theorem Comparable.refl {α : Type} (l : List α) : Comparable l l :=
  Or.inl (prefix_refl l)

/-- What is comparable with a list is comparable with what the list begins with. -/
theorem Comparable.of_begins {α : Type} {l l' l'' : List α} (h : Comparable l l')
    (hbegins : l'' <+: l') : Comparable l l'' := by
  rcases h with h | h
  · exact prefix_or_prefix_of_prefix h hbegins
  · exact Or.inr (hbegins.trans h)

/-- The shorter one by one element is the other without its last. -/
theorem Comparable.dropLast {α : Type} {l l' : List α} (h : Comparable l l')
    (hlen : l'.length = l.length + 1) : l = l'.dropLast := by
  rcases h with h | h
  · rw [dropLast_eq_take, hlen, Nat.add_sub_cancel]
    exact prefix_iff_eq_take.mp h
  · have hle := h.length_le
    omega

/-- What is kept of a chain and its cache. Where the chain never goes back to an older database
    (`grows`) the window is that of a beginning of the chain; elsewhere, while the reset flag is
    down, one of the two chains begins with the other. -/
structure WorkKept (E : Externals) (target : Hash → Nat) (grows : Prop) (log : List StoredBlock)
    (s : Blockchain) : Prop where
  fixed : s.fixedDifficulty = 0
  chain : Known E (WorkRule target) log s.db.blocks
  cached : ∃ cs, DifficultyReady E target log s.difficultyCache cs ∧
    (s.difficultyCache.timestampsAndDifficultiesHeight ≠ 0 →
      (grows → cs.map work <+: s.db.blocks.map work) ∧
      (s.difficultyCache.resetTimestampsAndDifficultiesHeight = false →
        Comparable (cs.map work) (s.db.blocks.map work)))

section Kept

variable {E : Externals} {target : Hash → Nat} {log : List StoredBlock} {grows : Prop}
  {s s' : Blockchain}

theorem Known.work_eq {bs cs : List StoredBlock}
    (hfree : CollisionFree E (log.map block))
    (hbs : Known E (WorkRule target) log bs) (hcs : Known E (WorkRule target) log cs)
    (hlast : lastId bs = lastId cs) : bs.map work = cs.map work :=
  Recorded.unique work hfree (workRule_determines target log) hbs.recorded hcs.recorded
    hbs.logged hcs.logged hlast

theorem DifficultyReady.cons_log {c : DifficultyCache} {cs : List StoredBlock}
    (h : DifficultyReady E target log c cs) (b : StoredBlock) :
    DifficultyReady E target (b :: log) c cs :=
  ⟨h.known.cons_log b, h.top, h.answer, h.window⟩

theorem difficultyReady_default : DifficultyReady E target log {} [] :=
  ⟨Known.nil, rfl, rfl, absurd rfl⟩

/-- A cache that has just been set up. -/
theorem workKept_default (hfixed : s.fixedDifficulty = 0)
    (hknown : Known E (WorkRule target) log s.db.blocks) (hcache : s.difficultyCache = {}) :
    WorkKept E target grows log s := by
  refine ⟨hfixed, hknown, [], ?_⟩
  rw [hcache]
  exact ⟨difficultyReady_default, absurd rfl⟩

namespace WorkKept

variable (h : WorkKept E target grows log s)
include h

/-- The windows are those of the chain, whether they were shifted or read. -/
theorem nextWindows_eq : nextWindows s.db s.difficultyCache =
      (windowBlocks (s.db.blocks.map work)).unzip := by
  rcases h.cached with ⟨cs, hready, hnear⟩
  refine nextWindows_of_below fun hflag hknown hheight => ?_
  rcases hready.window hknown with ⟨hlen, hwindow⟩
  have hblocks : s.db.blocks.length = cs.length + 1 := by
    rw [← hlen]
    exact hheight
  rw [hwindow, ((hnear hknown).2 hflag).dropLast (by rw [length_map, length_map, hblocks]),
    map_dropLast]

/-- A state with the same blocks, fixed difficulty and difficulty cache. -/
theorem of_same (hblocks : s'.db.blocks = s.db.blocks)
    (hfixed : s'.fixedDifficulty = s.fixedDifficulty)
    (hcache : s'.difficultyCache = s.difficultyCache) : WorkKept E target grows log s' := by
  refine ⟨hfixed.trans h.fixed, ?_, ?_⟩
  · rw [hblocks]
    exact h.chain
  · rw [hblocks, hcache]
    exact h.cached

/-- After a reset nothing is asked of the window. -/
theorem of_reset (hknown : Known E (WorkRule target) log s'.db.blocks)
    (hfixed : s'.fixedDifficulty = s.fixedDifficulty)
    (hcache : s'.difficultyCache = s.resetDifficulties.difficultyCache) :
    WorkKept E target grows log s' := by
  rcases h.cached with ⟨cs, hready, -⟩
  refine ⟨hfixed.trans h.fixed, hknown, cs, ?_⟩
  rw [hcache]
  exact ⟨⟨hready.known, hready.top, hready.answer, absurd rfl⟩, absurd rfl⟩

variable (hfree : CollisionFree E (log.map StoredBlock.block))
include hfree

/-- The cached answer, when it is for the top block. -/
theorem cached_answer (htop : s.db.topBlockHash = s.difficultyCache.difficultyForNextBlockTopHash) :
    s.difficultyCache.difficultyForNextBlock =
      nextWork (target s.db.topBlockHash) (s.db.blocks.map work) := by
  rcases h.cached with ⟨cs, hready, -⟩
  have hlast : lastId cs = lastId s.db.blocks := by
    rw [← hready.top, ← htop]
    rfl
  rw [hready.answer, Known.work_eq hfree hready.known h.chain hlast, hlast]
  rfl

/-- The caches do not show, when the answer is cached or the target is that of the top block. -/
theorem answer (htarget : target s.db.topBlockHash = difficultyTarget s.hardfork ∨
      s.difficultyCache.difficultyForNextBlockTopHash = s.db.topBlockHash) :
    s.getDifficultyForNextBlock.1 =
      nextWork (target s.db.topBlockHash) (s.db.blocks.map work) := by
  rw [getDifficultyForNextBlock_cached h.fixed]
  simp only [cachedDifficulty]
  split
  · rename_i htop
    exact h.cached_answer hfree htop
  · rename_i htop
    rw [h.nextWindows_eq, ← htarget.resolve_right (Ne.symm htop), unzip_eq_map]
    rfl

theorem query (htarget : target s.db.topBlockHash = difficultyTarget s.hardfork) :
    WorkKept E target grows log s.getDifficultyForNextBlock.2 := by
  have hanswer := h.answer hfree (.inl htarget)
  rw [getDifficultyForNextBlock_cached h.fixed] at hanswer ⊢
  simp only [cachedDifficulty] at hanswer ⊢
  by_cases htop : s.db.topBlockHash = s.difficultyCache.difficultyForNextBlockTopHash
  · rw [if_pos htop]
    exact h.of_same rfl rfl rfl
  · -- A fresh answer is for the chain that is there.
    rw [if_neg htop] at hanswer ⊢
    exact ⟨h.fixed, h.chain, s.db.blocks, ⟨h.chain, rfl, hanswer, fun _ => ⟨rfl, h.nextWindows_eq⟩⟩,
      fun _ => ⟨fun _ => prefix_refl _, fun _ => Comparable.refl _⟩⟩

/-- A pushed block has the work that the chain below it gives. If the chain may go back to an older
    database, the difficulty was asked for, so the window is that of the chain below. -/
theorem push {b : StoredBlock} (hhash : b.hash = E.blockHash b.block)
    (hparent : b.block.prevId = s.db.topBlockHash)
    (hwork : b.cumulativeDifficulty = s.getDifficultyForNextBlock.1 + s.topWork)
    (hasked : grows ∧ target s.db.topBlockHash = difficultyTarget s.hardfork ∨
      s.difficultyCache.difficultyForNextBlockTopHash = s.db.topBlockHash)
    (hblocks : s'.db.blocks = s.db.blocks ++ [b])
    (hfixed : s'.fixedDifficulty = s.fixedDifficulty)
    (hcache : s'.difficultyCache = s.difficultyCache) : WorkKept E target grows (b :: log) s' := by
  have hrule : WorkRule target s.db.blocks b := by
    have hlast : s.topWork = lastWork (s.db.blocks.map work) := by
      rw [topWork, lastWork, getLast?_map, Option.map_map]
      rfl
    rw [WorkRule, hwork, h.answer hfree (hasked.imp_left And.right), hlast, hparent]
  rcases h.cached with ⟨cs, hready, hnear⟩
  refine ⟨hfixed.trans h.fixed, ?_, cs, ?_, ?_⟩
  · rw [hblocks]
    exact h.chain.concat hhash hparent hrule
  · rw [hcache]
    exact hready.cons_log b
  · rw [hcache, hblocks, map_append]
    intro hne
    have hbegins : cs.map work <+: s.db.blocks.map work := by
      rcases hasked with ⟨hgrows, -⟩ | htop
      · exact (hnear hne).1 hgrows
      · rw [Known.work_eq hfree hready.known h.chain (hready.top.symm.trans htop)]
    have hlonger := hbegins.trans (prefix_append _ ([b].map work))
    exact ⟨fun _ => hlonger, fun _ => .inl hlonger⟩

end WorkKept

end Kept

end CocaineNode
