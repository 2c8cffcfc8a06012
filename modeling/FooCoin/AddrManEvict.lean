import FooCoin.AddrManRun
import FooCoin.Library.PartialShuffle

/-!
# Which entry leaves a full bucket

`SelectTried` exchanges each of the first entries of a bucket with a random later one and looks for
the oldest of those that it brings there.  The position that it keeps is the one the entry was drawn
from.
-/

namespace FooCoin

open PartialShuffle

namespace CAddrMan

variable {crypto : Crypto} {chance : CallChance} {m : CAddrMan} {nId : Int} {info : CAddrInfo}
  {nKBucket : Fin triedBucketCount}

/-- When an entry was last connected to. -/
def lastSuccess (m : CAddrMan) (nId : Int) : Int :=
  ((m.mapInfo.find nId).map fun info => info.nLastSuccess.toInt).getD 0

/-- The position that a round draws in a bucket. -/
def drawnPos (chance : CallChance) (vTried : List Int) (i : Nat) : Nat :=
  chance.getRandInt i (vTried.length - i) + i

/-- How many entries of a bucket are inspected. -/
def inspectCount (vTried : List Int) : Nat := min triedEntriesInspectOnEvict vTried.length

/-- The entry that a round inspects: the one that the earlier exchanges have left at the position it
draws. -/
def inspected (chance : CallChance) (vTried : List Int) (i : Nat) : Int :=
  vTried.getD (source (drawnPos chance vTried) i (drawnPos chance vTried i)) 0

/-- The entry is an inspected one, and none of the inspected ones is older. -/
def OldestInspected (chance : CallChance) (m : CAddrMan) (vTried : List Int) (nId : Int) : Prop :=
  (∃ i < inspectCount vTried, nId = inspected chance vTried i) ∧
    ∀ i < inspectCount vTried, m.lastSuccess nId ≤ m.lastSuccess (inspected chance vTried i)

/-- The first round that draws an oldest entry draws its own position, or the position of an
inspected entry of the same age. -/
def DrawnInPlace (chance : CallChance) (m : CAddrMan) (vTried : List Int) : Prop :=
  ∃ i, FirstLeast (fun i => m.lastSuccess (inspected chance vTried i)) (inspectCount vTried) i ∧
    (drawnPos chance vTried i = i ∨
      drawnPos chance vTried i < inspectCount vTried ∧
        m.lastSuccess (inspected chance vTried (drawnPos chance vTried i)) =
          m.lastSuccess (inspected chance vTried i))

/-! ## The loop -/

private theorem drawnPos_lt {vTried : List Int} {i : Nat} (small : i < vTried.length) :
    drawnPos chance vTried i < vTried.length := by
  have drawn := chance.getRandInt_lt i (vTried.length - i) (by omega)
  rw [drawnPos]
  omega

private theorem older_decide {nOldest : Int} (set : nOldest ≠ -1) (stored : nId ∈ m.mapInfo.keys)
    (oldest_stored : nOldest ∈ m.mapInfo.keys) :
    m.older (fun info => info.nLastSuccess.toInt) nOldest nId =
      some (decide (m.lastSuccess nId < m.lastSuccess nOldest)) := by
  obtain ⟨info, found⟩ := OrderedMap.mem_keys_iff.mp stored
  obtain ⟨oldest, oldest_found⟩ := OrderedMap.mem_keys_iff.mp oldest_stored
  rw [older, if_neg set, found, oldest_found, lastSuccess, lastSuccess, found, oldest_found]
  rfl

/-- What the loop has found before a round. -/
private inductive Found (chance : CallChance) (m : CAddrMan) (bucket : List Int) :
    Nat → Int → Int → Prop
  | nothing : Found chance m bucket 0 (-1) (-1)
  | oldest {rounds k : Nat}
      (best : FirstLeast (fun i => m.lastSuccess (inspected chance bucket i)) rounds k) :
      Found chance m bucket rounds (inspected chance bucket k) (drawnPos chance bucket k)

private theorem inspected_mem {bucket : List Int} {i : Nat} (small : i < bucket.length)
    {vTried : List Int} (length : vTried.length = bucket.length)
    (shuffled : ∀ place : Nat, vTried[place]? = bucket[source (drawnPos chance bucket) i place]?) :
    vTried[drawnPos chance bucket i]? = some (inspected chance bucket i) ∧
      inspected chance bucket i ∈ bucket := by
  have within : drawnPos chance bucket i < vTried.length := by
    rw [length]
    exact drawnPos_lt small
  have there : bucket[source (drawnPos chance bucket) i (drawnPos chance bucket i)]? =
      some vTried[drawnPos chance bucket i] := by
    rw [← shuffled, List.getElem?_eq_getElem within]
  have met : inspected chance bucket i = vTried[drawnPos chance bucket i] := by
    rw [inspected, List.getD_eq_getElem?_getD, there, Option.getD_some]
  rw [List.getElem?_eq_getElem within, met]
  exact ⟨rfl, List.mem_of_getElem? there⟩

/-- One more entry replaces the oldest one if it is older. -/
private theorem Found.succ {bucket : List Int} (stored : ∀ nId ∈ bucket, nId ∈ m.mapInfo.keys)
    (unset : -1 ∉ bucket) {i : Nat} {nOldest nOldestPos : Int}
    (members : ∀ round ≤ i, inspected chance bucket round ∈ bucket)
    (found : Found chance m bucket i nOldest nOldestPos) :
    ∃ older, m.older (fun info => info.nLastSuccess.toInt) nOldest (inspected chance bucket i) =
        some older ∧
      Found chance m bucket (i + 1) (if older then inspected chance bucket i else nOldest)
        (if older then (drawnPos chance bucket i : Int) else nOldestPos) := by
  cases found with
  | nothing => exact ⟨true, if_pos rfl, Found.oldest (firstLeast_one _)⟩
  | @oldest _ k best =>
      have member := members k best.lt.le
      have set : inspected chance bucket k ≠ -1 := fun same => unset (same ▸ member)
      refine ⟨_, older_decide set (stored _ (members i le_rfl)) (stored _ member), ?_⟩
      have next := Found.oldest best.succ
      simp only [decide_eq_true_eq]
      split at next
      next earlier => rwa [if_pos earlier, if_pos earlier]
      next later => rwa [if_neg later, if_neg later]

private theorem selectTriedLoop_found {bucket : List Int}
    (stored : ∀ nId ∈ bucket, nId ∈ m.mapInfo.keys) (unset : -1 ∉ bucket) {left i : Nat}
    {vTried : List Int} {nOldest nOldestPos : Int} (length : vTried.length = bucket.length)
    (shuffled : ∀ place : Nat, vTried[place]? = bucket[source (drawnPos chance bucket) i place]?)
    (members : ∀ round < i, inspected chance bucket round ∈ bucket)
    (found : Found chance m bucket i nOldest nOldestPos) (inside : i ≤ bucket.length) :
    ∃ after last nPos, m.selectTriedLoop chance left i vTried nOldest nOldestPos =
        some (after, nPos) ∧
      (∀ place : Nat, after[place]? =
        bucket[source (drawnPos chance bucket) (min (i + left) bucket.length) place]?) ∧
      Found chance m bucket (min (i + left) bucket.length) last nPos := by
  induction left generalizing i vTried nOldest nOldestPos with
  | zero =>
      rw [Nat.add_zero, min_eq_left inside]
      exact ⟨vTried, nOldest, nOldestPos, rfl, shuffled, found⟩
  | succ left induction =>
      by_cases small : i < bucket.length
      · obtain ⟨drawn, member⟩ := inspected_mem small length shuffled
        have here : i < vTried.length := by rwa [length]
        have within : drawnPos chance bucket i < vTried.length := by
          rw [length]
          exact drawnPos_lt small
        have met : vTried[drawnPos chance bucket i] = inspected chance bucket i :=
          Option.some.inj ((List.getElem?_eq_getElem within).symm.trans drawn)
        have known : ∀ round < i + 1, inspected chance bucket round ∈ bucket := by
          intro round below
          rcases Nat.lt_or_eq_of_le (Nat.le_of_lt_succ below) with before | rfl
          · exact members round before
          · exact member
        obtain ⟨older, compared, next⟩ :=
          found.succ stored unset fun round below => known round (Nat.lt_succ_of_le below)
        have exchanged (place : Nat) : ((vTried.set (drawnPos chance bucket i) vTried[i]).set i
            (inspected chance bucket i))[place]? =
            bucket[source (drawnPos chance bucket) (i + 1) place]? := by
          rw [← met, getElem?_exchange here within, shuffled, source_succ_apply]
        obtain ⟨after, last, nPos, searched, order, ends⟩ :=
          induction (by simpa using length) exchanged known next small
        have rounds : i + 1 + left = i + (left + 1) := by omega
        rw [rounds] at order ends
        refine ⟨after, last, nPos, ?_, order, ends⟩
        have position : chance.getRandInt i (vTried.length - i) + i = drawnPos chance bucket i := by
          rw [drawnPos, length]
        rw [selectTriedLoop, if_pos here, position]
        simp only [drawn, List.getElem?_eq_getElem here, Option.bind_eq_bind, Option.bind_some,
          compared]
        cases older with
        | true => exact searched
        | false => exact searched
      · have all : i = bucket.length := by omega
        have ends : ¬i < vTried.length := by omega
        rw [min_eq_right (by omega), ← all]
        exact ⟨vTried, nOldest, nOldestPos, by rw [selectTriedLoop, if_neg ends], shuffled, found⟩

/-! ## The selected position -/

/-- The selected position holds an oldest inspected entry where its round has drawn it in place. -/
private theorem selectTried_iff (chance : CallChance)
    (stored : ∀ nId ∈ m.vvTried nKBucket, nId ∈ m.mapInfo.keys) (unset : -1 ∉ m.vvTried nKBucket)
    (nodup : (m.vvTried nKBucket).Nodup) (nonempty : m.vvTried nKBucket ≠ []) :
    ∃ shuffled nPos held, m.selectTried chance nKBucket = some (shuffled, nPos) ∧
      shuffled.Perm (m.vvTried nKBucket) ∧ 0 ≤ nPos ∧ shuffled[nPos.toNat]? = some held ∧
      (OldestInspected chance m (m.vvTried nKBucket) held ↔
        DrawnInPlace chance m (m.vvTried nKBucket)) := by
  have positive : 0 < (m.vvTried nKBucket).length := List.length_pos_iff.mpr nonempty
  obtain ⟨after, nPos, selected, perm, small⟩ := selectTried_eq chance positive stored
  obtain ⟨shuffled, last, pos, searched, order, found⟩ :=
    @selectTriedLoop_found chance m _ stored unset triedEntriesInspectOnEvict 0 _ _ _ rfl
      (fun _ => rfl) (fun _ below => absurd below (Nat.not_lt_zero _)) Found.nothing (Nat.zero_le _)
  obtain ⟨rfl, rfl⟩ := Prod.mk.inj (Option.some.inj (selected.symm.trans searched))
  have count : min (0 + triedEntriesInspectOnEvict) (m.vvTried nKBucket).length =
      inspectCount (m.vvTried nKBucket) := by rw [Nat.zero_add, inspectCount]
  have count_pos : 0 < inspectCount (m.vvTried nKBucket) :=
    lt_min (by decide) positive
  have count_le : inspectCount (m.vvTried nKBucket) ≤ after.length := by
    rw [perm.length_eq]
    exact min_le_right _ _
  rw [count] at order found
  have later (i : Nat) : i ≤ drawnPos chance (m.vvTried nKBucket) i := Nat.le_add_left _ _
  have front (i : Nat) (below : i < inspectCount (m.vvTried nKBucket)) :
      after[i]? = some (inspected chance (m.vvTried nKBucket) i) := by
    have inside := List.getElem?_eq_getElem (below.trans_le count_le)
    have there := order i
    rw [source_of_lt later below, inside] at there
    rw [inspected, List.getD_eq_getElem?_getD, ← there, inside, Option.getD_some]
  obtain ⟨held, holds⟩ : ∃ held, after[nPos.toNat]? = some held :=
    ⟨_, List.getElem?_eq_getElem small⟩
  generalize rounds : inspectCount (m.vvTried nKBucket) = count at found
  cases found with
  | nothing => omega
  | @oldest _ k best =>
      subst rounds
      refine ⟨after, _, held, selected, perm, Int.natCast_nonneg _, holds, ?_⟩
      rw [Int.toNat_natCast] at holds
      constructor
      · rintro ⟨⟨i, below, same⟩, oldest⟩
        have place : i = drawnPos chance (m.vvTried nKBucket) k := by
          refine (List.getElem?_inj (below.trans_le count_le) (perm.nodup_iff.mpr nodup)).mp ?_
          rw [front i below, holds, same]
        refine ⟨k, best, Or.inr ⟨place ▸ below, ?_⟩⟩
        rw [← place, ← same]
        exact le_antisymm (oldest k best.lt) (same ▸ best.least i below)
      · rintro ⟨other, best', in_place⟩
        rw [best'.unique best] at in_place
        rcases in_place with own | ⟨below, same⟩
        · rw [own, front k best.lt] at holds
          rw [← Option.some.inj holds]
          exact ⟨⟨k, best.lt, rfl⟩, best.least⟩
        · rw [front _ below] at holds
          rw [← Option.some.inj holds]
          exact ⟨⟨_, below, rfl⟩, fun i inside => same.le.trans (best.least i inside)⟩

/-- Where the bucket of an entry is full, the entry at the selected position makes room. -/
private theorem makeTried_evicts {nOrigin : Fin newBucketCount} {after : CAddrMan}
    (tried : m.makeTried crypto chance nId info nOrigin = some after)
    (full : ¬(m.vvTried (info.getTriedBucket crypto m.nKey)).length < triedBucketSize) :
    ∃ shuffled nPos held, (m.withdraw nId info).2.selectTried chance
        (info.getTriedBucket crypto m.nKey) = some (shuffled, nPos) ∧
      shuffled[nPos.toNat]? = some held ∧
      after.vvTried (info.getTriedBucket crypto m.nKey) = shuffled.set nPos.toNat nId := by
  simp only [CAddrMan.makeTried] at tried
  split_ifs at tried with absent referenced room
  · exact absurd room full
  · simp only [Option.bind_eq_bind, Option.bind_eq_some_iff, Option.pure_def,
      Option.some.injEq] at tried
    obtain ⟨⟨shuffled, nPos⟩, selected, held, holds, infoOld, -, rfl⟩ := tried
    exact ⟨shuffled, nPos, held, selected, holds, Function.update_self ..⟩

private theorem lastSuccess_withdraw (found : m.mapInfo.find nId = some info) :
    (m.withdraw nId info).2.lastSuccess = m.lastSuccess := by
  funext other
  simp only [withdraw, lastSuccess, CAddrMan.setInfo]
  by_cases same : other = nId
  · rw [same, OrderedMap.find_insert_self, found]
    rfl
  · rw [OrderedMap.find_insert_of_ne same]

/-- The selected position of every non-empty bucket holds an oldest inspected entry, and so
`MakeTried` evicts one, if and only if the first round with an oldest entry draws it in place. -/
theorem selectTried_oldest_iff (sound : m.Sound crypto none) (chance : CallChance)
    (nKBucket : Fin triedBucketCount) (nonempty : m.vvTried nKBucket ≠ []) :
    (∃ shuffled nPos held, m.selectTried chance nKBucket = some (shuffled, nPos) ∧
      shuffled.Perm (m.vvTried nKBucket) ∧ 0 ≤ nPos ∧ shuffled[nPos.toNat]? = some held ∧
      (OldestInspected chance m (m.vvTried nKBucket) held ↔
        DrawnInPlace chance m (m.vvTried nKBucket))) ∧
    ∀ nId info nOrigin after, m.mapInfo.find nId = some info →
      info.getTriedBucket crypto m.nKey = nKBucket →
      ¬(m.vvTried nKBucket).length < triedBucketSize →
      m.makeTried crypto chance nId info nOrigin = some after →
      ∃ evicted, (evicted :: after.vvTried nKBucket).Perm (nId :: m.vvTried nKBucket) ∧
        (OldestInspected chance m (m.vvTried nKBucket) evicted ↔
          DrawnInPlace chance m (m.vvTried nKBucket)) := by
  have unset : -1 ∉ m.vvTried nKBucket := by
    intro listed
    obtain ⟨info, found⟩ := OrderedMap.mem_keys_iff.mp (sound.triedStored nKBucket _ listed)
    have nonneg := (sound.directory.range _ info found).1
    omega
  constructor
  · exact selectTried_iff chance (sound.triedStored nKBucket) unset (sound.triedNodup nKBucket)
      nonempty
  · rintro nId info nOrigin after found rfl full tried
    obtain ⟨shuffled, nPos, evicted, selected, holds, replaced⟩ := makeTried_evicts tried full
    have stored : ∀ other ∈ m.vvTried (info.getTriedBucket crypto m.nKey),
        other ∈ (m.withdraw nId info).2.mapInfo.keys := fun other listed =>
      Finset.mem_insert_of_mem (sound.triedStored _ other listed)
    obtain ⟨shuffled', nPos', held, selected', perm, -, holds', oldest⟩ :=
      @selectTried_iff (m.withdraw nId info).2 (info.getTriedBucket crypto m.nKey) chance stored
        unset (sound.triedNodup _) nonempty
    obtain ⟨rfl, rfl⟩ := Prod.mk.inj (Option.some.inj (selected.symm.trans selected'))
    obtain rfl := Option.some.inj (holds.symm.trans holds')
    refine ⟨evicted, ?_, ?_⟩
    · obtain ⟨small, rfl⟩ := List.getElem?_eq_some_iff.mp holds
      rw [replaced]
      exact (cons_set_perm small nId).trans (perm.cons nId)
    · rw [OldestInspected, DrawnInPlace, lastSuccess_withdraw found] at oldest
      exact oldest

theorem selectTried_oldest_iff_sample : ∃ m, sampleAddrMan = some m ∧
    ∃ shuffled nPos held, m.selectTried sampleChance 0 = some (shuffled, nPos) ∧
      shuffled.Perm (m.vvTried 0) ∧ 0 ≤ nPos ∧ shuffled[nPos.toNat]? = some held ∧
      (OldestInspected sampleChance m (m.vvTried 0) held ↔
        DrawnInPlace sampleChance m (m.vvTried 0)) := by
  obtain ⟨m, result, run⟩ := sampleAddrMan_run
  have nonempty : m.vvTried 0 ≠ [] := by
    have bucket : (sampleAddrMan.map fun m => m.vvTried 0) = some [0] := by decide +kernel
    rw [result, Option.map_some, Option.some.injEq] at bucket
    rw [bucket]
    simp
  exact ⟨m, result, (selectTried_oldest_iff run.sound.1 sampleChance 0 nonempty).1⟩

/-! ## An entry that is not the oldest -/

/-- One of several peers in a network. -/
def crowdedPeer (nId : Nat) : CAddress :=
  { samplePeer with ip := samplePeer.ip.set 15 (UInt8.ofNat nId) }

/-- A manager with a full bucket, whose later entries are older. -/
def crowded : CAddrMan where
  nKey := List.replicate 32 0
  nIdCount := 64
  mapInfo :=
    { find := fun nId =>
        if 0 ≤ nId ∧ nId < 64 then
          some
            { CAddrInfo.ofAddress (crowdedPeer nId.toNat) samplePeer.toCNetAddr with
              nLastSuccess := Int64.ofInt (64 - nId)
              fInTried := true
              nRandomPos := nId }
        else none
      keys := (Finset.range 64).image Nat.cast
      mem_keys := fun nId => by
        rw [Finset.mem_image]
        constructor
        · rintro ⟨number, small, rfl⟩
          have below := Finset.mem_range.mp small
          simpa using below
        · intro present
          by_cases inside : 0 ≤ nId ∧ nId < 64
          · exact ⟨nId.toNat, Finset.mem_range.mpr (by omega), Int.toNat_of_nonneg inside.1⟩
          · simp [inside] at present }
  mapAddr addr :=
    ((List.range 64).find? fun nId => (crowdedPeer nId).toCNetAddr = addr).map Nat.cast
  vRandom := (List.range 64).map Nat.cast
  nTried := 64
  vvTried nKBucket := if nKBucket.val = 0 then (List.range 64).map Nat.cast else []
  nNew := 0
  vvNew _ := ∅

/-- A chance that draws the last entry first and then always zero. -/
def lastFirst : CallChance where
  getRandInt i nMax := if i = 0 then nMax - 1 else 0
  getRandInt_lt i nMax positive := by
    split <;> omega
  getAdjustedTime _ := 1400000000

/-- The oldest entry is drawn from the end of the bucket, and the position selected there then holds
the newest one. -/
theorem not_selectTried_oldest : ∃ shuffled,
    crowded.selectTried lastFirst 0 = some (shuffled, 63) ∧ shuffled[63]? = some 0 ∧
      ¬OldestInspected lastFirst crowded (crowded.vvTried 0) 0 := by
  refine ⟨63 :: ((List.range 62).map fun nId => (nId : Int) + 1) ++ [0], by decide +kernel,
    by decide +kernel, fun oldest => ?_⟩
  have later := oldest.2 0 (by decide +kernel)
  have earlier : crowded.lastSuccess (inspected lastFirst (crowded.vvTried 0) 0) <
      crowded.lastSuccess 0 := by decide +kernel
  exact absurd later (not_le.mpr earlier)

end CAddrMan

end FooCoin
