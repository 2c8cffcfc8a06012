import FooCoin.MinerAgreement
import FooCoin.Script.Push

/-!
# Work units

`getwork` and `getworkex` hand out the header of a block template to work on and take it back with
another time and nonce.  All units of a template share one block, whose coinbase is rewritten for
each of them, so a unit that comes back is made again from the script that was saved for its Merkle
root.  `getworkex` also takes a whole coinbase back, which then stays in the template.
-/

namespace FooCoin

open LittleEndian Codec Op

/-! ## Headers as work data -/

/-- `ByteReverse` of each word. -/
def byteReverse : List UInt8 → List UInt8
  | a :: b :: c :: d :: rest => d :: c :: b :: a :: byteReverse rest
  | rest => rest

/-- What `FormatHashBlocks` puts behind the 80 bytes of a header. -/
def hashPadding : List UInt8 := 0x80 :: List.replicate 43 0 ++ [0, 0, 2, 0x80]

/-- The `pdata` of `FormatHashBuffers`. -/
def workData (pblock : CBlock) : List UInt8 := byteReverse (pblock.writeHeader ++ hashPadding)

/-- The header in work data that came back. -/
structure WorkHeader where
  hashMerkleRoot : UInt256
  nTime : UInt32
  nNonce : UInt32

/-- The fields of the header in the words of some data. -/
def readWork (vchData : List UInt8) : WorkHeader :=
  let pdata := byteReverse vchData
  { hashMerkleRoot := BitVec.ofNat 256 (ofLE ((pdata.drop 36).take 32))
    nTime := UInt32.ofNat (ofLE ((pdata.drop 68).take 4))
    nNonce := UInt32.ofNat (ofLE ((pdata.drop 76).take 4)) }

/-! ## The coinbase of a template -/

/-- Write `vin[0].scriptSig`, `none` where there is no input. -/
def CTransaction.withScriptSig (scriptSig : CScript) (tx : CTransaction) : Option CTransaction :=
  match tx.vin with
  | [] => none
  | txin :: vin => some { tx with vin := { txin with scriptSig } :: vin }

/-- Write `vtx[0].vin[0].scriptSig`, `none` where there is none. -/
def withCoinBaseScript (scriptSig : CScript) : List CTransaction → Option (List CTransaction)
  | [] => none
  | tx :: vtx => (tx.withScriptSig scriptSig).map (· :: vtx)

/-- `COINBASE_FLAGS`. -/
def COINBASE_FLAGS : CScript := pushData [0x2f, 0x50, 0x32, 0x53, 0x48, 0x2f]

/-- `CScript::push_uint64`. -/
def pushUInt64 (n : Nat) : CScript :=
  if 1 ≤ n ∧ n ≤ 16 then [UInt8.ofNat (n + (OP_1 - 1))] else pushData (getvch n)

/-- The script that `IncrementExtraNonce` writes. -/
def extraNonceScript (nTime nExtraNonce : UInt32) : CScript :=
  pushUInt64 nTime.toNat ++ pushData (getvch nExtraNonce.toNat) ++ COINBASE_FLAGS

/-- The counter of `IncrementExtraNonce`, whose `hashPrevBlock` is static. -/
def nextExtraNonce (hashPrevBlock : UInt256) (nExtraNonce : UInt32) (pblock : CBlock) : UInt32 :=
  (if hashPrevBlock ≠ pblock.hashPrevBlock then 0 else nExtraNonce) + 1

/-- `IncrementExtraNonce`: the block, `none` where its assertion fails. -/
def incrementExtraNonce (crypto : Crypto) (nExtraNonce : UInt32) (pblock : CBlock) :
    Option CBlock :=
  let scriptSig := extraNonceScript pblock.nTime nExtraNonce
  if 100 < scriptSig.length then none
  else
    (withCoinBaseScript scriptSig pblock.vtx).map fun vtx =>
      { pblock with vtx, hashMerkleRoot := buildMerkleTree crypto vtx }

/-! ## The commands -/

/-- The static variables of a command. -/
structure GetWork where
  mapNewBlock : List (UInt256 × Nat × CScript)
  vNewBlock : List CBlock
  nTransactionsUpdatedLast : UInt32
  pindexPrev : BlockChain
  nStart : Int
  pblock : Option Nat
  nExtraNonce : UInt32

/-- What a request for work meets: the clocks, the counter of pool changes and the block that
`CreateNewBlock` returns if it is called. -/
structure WorkArrival where
  nTransactionsUpdated : UInt32
  nNow : Int
  nAdjustedTime : Int
  created : CBlock

/-- What a command has done. -/
inductive WorkReply
  /-- It has handed out the header of a block. -/
  | issued (pblock : CBlock)
  /-- It runs `CheckWork` on a block. -/
  | checkWork (pblock : CBlock)
  /-- It returns `false` or throws an error before. -/
  | refused

namespace GetWork

/-- The statics of a command that has not been called. -/
def start : GetWork where
  mapNewBlock := []
  vNewBlock := []
  nTransactionsUpdatedLast := 0
  pindexPrev := []
  nStart := 0
  pblock := none
  nExtraNonce := 0

/-- The entry of `mapNewBlock`. -/
def saved (state : GetWork) (hashMerkleRoot : UInt256) : Option (Nat × CScript) :=
  (state.mapNewBlock.find? fun entry => entry.1 = hashMerkleRoot).map Prod.snd

variable (crypto : Crypto) (fTestNet : Bool) (pindexBest : BlockChain)

/-- A new block is created. -/
def rebuilds (state : GetWork) (arrival : WorkArrival) : Bool :=
  state.pindexPrev ≠ pindexBest ||
    (arrival.nTransactionsUpdated ≠ state.nTransactionsUpdatedLast &&
      60 < arrival.nNow - state.nStart)

/-- `Update block`. -/
def updateBlock (state : GetWork) (arrival : WorkArrival) : GetWork :=
  if state.rebuilds pindexBest arrival then
    let state :=
      if state.pindexPrev ≠ pindexBest then { state with mapNewBlock := [], vNewBlock := [] }
      else state
    { state with
      nTransactionsUpdatedLast := arrival.nTransactionsUpdated
      pindexPrev := pindexBest
      nStart := arrival.nNow
      pblock := some state.vNewBlock.length
      vNewBlock := state.vNewBlock ++ [arrival.created] }
  else state

/-- The block that `pblock` points to. -/
def template (state : GetWork) : Option (Nat × CBlock) :=
  state.pblock.bind fun pblock => state.vNewBlock[pblock]?.map (pblock, ·)

/-- The time of new work. -/
def workTime (state : GetWork) (arrival : WorkArrival) : UInt32 :=
  UInt32.ofInt (max ((getMedianTimePast state.pindexPrev : Int) + 1) arrival.nAdjustedTime)

/-- Give the template a time, another extra nonce and an entry in `mapNewBlock`. -/
def issue (hashPrevBlock : UInt256) (state : GetWork) (pblock : Nat) (block : CBlock) :
    Option (CBlock × GetWork) :=
  let nExtraNonce := nextExtraNonce hashPrevBlock state.nExtraNonce block
  (incrementExtraNonce crypto nExtraNonce block).map fun block =>
    let scriptSig := extraNonceScript block.nTime nExtraNonce
    (block, { state with
      nExtraNonce
      vNewBlock := state.vNewBlock.set pblock block
      mapNewBlock := (block.hashMerkleRoot, pblock, scriptSig) :: state.mapNewBlock })

/-- `CBlock::UpdateTime`, `none` where it fails. -/
def updateTime (state : GetWork) (arrival : WorkArrival) (block : CBlock) : Option CBlock :=
  let nTime := state.workTime arrival
  if fTestNet then
    match getNextWorkRequired fTestNet state.pindexPrev nTime with
    | .ok nBits => some { block with nTime, nBits }
    | .error _ => none
  else some { block with nTime }

/-- `getwork` without parameters: the block whose header is handed out and the statics. -/
def getwork (hashPrevBlock : UInt256) (state : GetWork) (arrival : WorkArrival) :
    Option (CBlock × GetWork) := do
  let state := state.updateBlock pindexBest arrival
  let (pblock, block) ← state.template
  let block ← state.updateTime fTestNet arrival block
  state.issue crypto hashPrevBlock pblock { block with nNonce := 0 }

/-- `getworkex` without parameters: the block whose header and coinbase are handed out and the
statics. -/
def getworkex (hashPrevBlock : UInt256) (state : GetWork) (arrival : WorkArrival) :
    Option (CBlock × GetWork) := do
  let state := state.updateBlock pindexBest arrival
  let (pblock, block) ← state.template
  let nTime := state.workTime arrival
  state.issue crypto hashPrevBlock pblock { block with nTime, nNonce := 0 }

/-- Take work back: the coinbase is the one that `restore` makes of the saved script. -/
def takeBack (restore : CScript → List CTransaction → Option (List CTransaction))
    (state : GetWork) (vchData : List UInt8) : Option (WorkReply × GetWork) :=
  if vchData.length ≠ 128 then some (.refused, state)
  else
    let pdata := readWork vchData
    match state.saved pdata.hashMerkleRoot with
    | none => some (.refused, state)
    | some (pblock, scriptSig) => do
        let block ← state.vNewBlock[pblock]?
        let vtx ← restore scriptSig block.vtx
        let block : CBlock :=
          { block with
            nTime := pdata.nTime
            nNonce := pdata.nNonce
            vtx
            hashMerkleRoot := buildMerkleTree crypto vtx }
        some (.checkWork block, { state with vNewBlock := state.vNewBlock.set pblock block })

/-- `getwork` with data. -/
def submit (state : GetWork) (vchData : List UInt8) : Option (WorkReply × GetWork) :=
  state.takeBack crypto withCoinBaseScript vchData

/-- The first transaction is read over, `none` where it cannot be read. -/
def readCoinBase (coinbase : List UInt8) : List CTransaction → Option (List CTransaction)
  | [] => none
  | _ :: vtx => (CTransaction.read coinbase).map fun tx => tx.1 :: vtx

/-- `getworkex` with data and a coinbase, which is empty where there is none. -/
def submitex (state : GetWork) (vchData coinbase : List UInt8) : Option (WorkReply × GetWork) :=
  state.takeBack crypto
    (fun scriptSig vtx =>
      if coinbase = [] then withCoinBaseScript scriptSig vtx else readCoinBase coinbase vtx)
    vchData

end GetWork

/-! ## Runs -/

/-- The commands and the best block, with the units that were issued since it changed. -/
structure WorkServer where
  pindexBest : BlockChain
  /-- The static variable of `IncrementExtraNonce`. -/
  hashPrevBlock : UInt256
  work : GetWork
  workex : GetWork
  units : List CBlock
  unitsex : List CBlock

/-- What happens to the commands. -/
inductive WorkCall
  | newBest (pindexBest : BlockChain)
  | getwork (arrival : WorkArrival)
  | getworkex (arrival : WorkArrival)
  | submit (vchData : List UInt8)
  | submitex (vchData coinbase : List UInt8)

namespace WorkServer

/-- Before any call. -/
def start : WorkServer where
  pindexBest := []
  hashPrevBlock := 0
  work := .start
  workex := .start
  units := []
  unitsex := []

variable (crypto : Crypto) (fTestNet : Bool)

/-- The commands after a call, `none` where it does not end. -/
def next (server : WorkServer) : WorkCall → Option WorkServer
  | .newBest pindexBest => some { server with pindexBest, units := [], unitsex := [] }
  | .getwork arrival =>
      (server.work.getwork crypto fTestNet server.pindexBest server.hashPrevBlock arrival).map
        fun (block, work) =>
          { server with
            hashPrevBlock := block.hashPrevBlock
            work
            units := block :: server.units }
  | .getworkex arrival =>
      (server.workex.getworkex crypto server.pindexBest server.hashPrevBlock arrival).map
        fun (block, workex) =>
          { server with
            hashPrevBlock := block.hashPrevBlock
            workex
            unitsex := block :: server.unitsex }
  | .submit vchData =>
      (server.work.submit crypto vchData).map fun (_, work) => { server with work }
  | .submitex vchData coinbase =>
      (server.workex.submitex crypto vchData coinbase).map fun (_, workex) => { server with workex }

end WorkServer

/-- What `CreateNewBlock` returns for a key of the pool. -/
def CreatesBlock (crypto : Crypto) (fTestNet : Bool) (pindexBest : BlockChain) (block : CBlock) :
    Prop :=
  ∃ env context vchPubKey, env.crypto = crypto ∧ env.fTestNet = fTestNet ∧
    context.pindexBest = pindexBest ∧ vchPubKey.length ≤ 65 ∧
    context.scriptPubKey = pushData vchPubKey ++ [UInt8.ofNat OP_CHECKSIG] ∧
    createNewBlock env context = .ok block

namespace WorkServer

variable (crypto : Crypto) (fTestNet : Bool)

/-- A new template is one that `CreateNewBlock` returns. -/
def Valid (server : WorkServer) : WorkCall → Prop
  | .getwork arrival => server.work.rebuilds server.pindexBest arrival = true →
      CreatesBlock crypto fTestNet server.pindexBest arrival.created
  | .getworkex arrival => server.workex.rebuilds server.pindexBest arrival = true →
      CreatesBlock crypto fTestNet server.pindexBest arrival.created
  | _ => True

/-- The Merkle roots of the units are different. -/
def CollisionFree (server : WorkServer) : Prop :=
  (server.units.map CBlock.hashMerkleRoot).Nodup ∧
    (server.unitsex.map CBlock.hashMerkleRoot).Nodup

/-- The servers after calls that meet a condition. -/
inductive Run (condition : WorkServer → WorkCall → Prop) : WorkServer → Prop
  | start : Run condition start
  | call {server after : WorkServer} {call : WorkCall} (before : Run condition server)
      (meets : condition server call) (valid : server.Valid crypto fTestNet call)
      (done : server.next crypto fTestNet call = some after) (free : after.CollisionFree) :
      Run condition after

end WorkServer

/-- The data with other bytes for the time and the nonce. -/
def Altered (vchData altered : List UInt8) : Prop :=
  ∃ time nonce, time.length = 4 ∧ nonce.length = 4 ∧
    altered = vchData.take 68 ++ time ++ (vchData.drop 72).take 4 ++ nonce ++ vchData.drop 80

/-- `CheckWork` runs on a block with the header of the data. -/
def ChecksHeader (vchData : List UInt8) (reply : Option (WorkReply × GetWork)) : Prop :=
  ∃ block after, reply = some (.checkWork block, after) ∧
    block.writeHeader = (byteReverse vchData).take 80

/-- The coinbase that is handed out. -/
def coinbaseData (unit : CBlock) : List UInt8 := (unit.vtx.head?.map CTransaction.write).getD []

/-- Work that is outstanding can be submitted. -/
def WorkServer.Submittable (crypto : Crypto) (server : WorkServer) : Prop :=
  (∀ unit ∈ server.units, ∀ vchData, Altered (workData unit) vchData →
    ChecksHeader vchData (server.work.submit crypto vchData)) ∧
  ∀ unit ∈ server.unitsex, ∀ vchData coinbase, Altered (workData unit) vchData →
    coinbase = [] ∨ coinbase = coinbaseData unit →
      ChecksHeader vchData (server.workex.submitex crypto vchData coinbase)

/-- The call changes neither the difficulty of a template in use nor its coinbase. -/
def WorkServer.KeepsTemplate (fTestNet : Bool) (server : WorkServer) : WorkCall → Prop
  | .getwork arrival => fTestNet = true → server.work.rebuilds server.pindexBest arrival = false →
      ∀ pblock block, server.work.template = some (pblock, block) →
        getNextWorkRequired fTestNet server.work.pindexPrev (server.work.workTime arrival) =
          .ok block.nBits
  | .submitex vchData coinbase => coinbase ≠ [] → ∀ pblock scriptSig block tx rest,
      server.workex.saved (readWork vchData).hashMerkleRoot = some (pblock, scriptSig) →
      server.workex.vNewBlock[pblock]? = some block →
      CTransaction.read coinbase = some (tx, rest) →
      ∀ own ∈ block.vtx.head?, tx.withScriptSig [] = own.withScriptSig []
  | _ => True

/-! ## Altered data -/

@[simp]
theorem length_byteReverse (bytes : List UInt8) : (byteReverse bytes).length = bytes.length := by
  fun_induction byteReverse bytes with
  | case1 a b c d rest induction => simp [induction]
  | case2 rest short => rfl

private theorem byteReverse_byteReverse (bytes : List UInt8) :
    byteReverse (byteReverse bytes) = bytes := by
  fun_induction byteReverse bytes with
  | case1 a b c d rest induction => rw [byteReverse, induction]
  | case2 rest short => rw [byteReverse.eq_2 rest short]

private theorem byteReverse_append (words : Nat) {front : List UInt8}
    (length : front.length = 4 * words) (back : List UInt8) :
    byteReverse (front ++ back) = byteReverse front ++ byteReverse back := by
  induction words generalizing front with
  | zero =>
      obtain rfl := List.length_eq_zero_iff.mp length
      rfl
  | succ words induction =>
      obtain ⟨a, b, c, d, front, rfl⟩ : ∃ a b c d rest, front = a :: b :: c :: d :: rest := by
        match front, length with
        | a :: b :: c :: d :: rest, _ => exact ⟨a, b, c, d, rest, rfl⟩
      have shorter : front.length = 4 * words := by
        simp only [List.length_cons] at length
        omega
      simp [byteReverse, induction shorter]

private theorem leBytes_read {bytes : List UInt8} (length : bytes.length = 4) :
    leBytes 4 (UInt32.ofNat (ofLE bytes)).toNat = bytes := by
  have bound := ofLE_lt bytes
  rw [length] at bound
  rw [UInt32.toNat_ofNat', Nat.mod_eq_of_lt (by omega), ← length, leBytes_ofLE]

private theorem take_altered {front time' bits nonce' padding time nonce : List UInt8}
    (front_length : front.length = 68) (time_length : time'.length = 4)
    (bits_length : bits.length = 4) (nonce_length : nonce'.length = 4)
    {data : List UInt8} (parts : data = front ++ (time' ++ (bits ++ (nonce' ++ padding)))) :
    data.take 68 ++ time ++ (data.drop 72).take 4 ++ nonce ++ data.drop 80 =
      front ++ (time ++ (bits ++ (nonce ++ padding))) := by
  have head : data.take 68 = front := by
    rw [parts]
    exact List.take_left' front_length
  have middle : (data.drop 72).take 4 = bits := by
    rw [parts, ← List.append_assoc, List.drop_left' (by simp [front_length, time_length])]
    exact List.take_left' bits_length
  have tail : data.drop 80 = padding := by
    rw [parts, ← List.append_assoc, ← List.append_assoc, ← List.append_assoc]
    exact List.drop_left' (by simp [front_length, time_length, bits_length, nonce_length])
  rw [head, middle, tail, List.append_assoc, List.append_assoc, List.append_assoc]

/-- Altered data are the header with another time and nonce. -/
theorem readWork_altered {unit : CBlock} {vchData : List UInt8}
    (altered : Altered (workData unit) vchData) :
    vchData.length = 128 ∧ (readWork vchData).hashMerkleRoot = unit.hashMerkleRoot ∧
      (byteReverse vchData).take 80 = CBlock.writeHeader
        { unit with nTime := (readWork vchData).nTime, nNonce := (readWork vchData).nNonce } := by
  obtain ⟨time, nonce, time_length, nonce_length, changed⟩ := altered
  obtain ⟨front, front_eq⟩ : ∃ front, front = leBytes 4 unit.nVersion.toUInt32.toNat ++
    leBytes 32 unit.hashPrevBlock.toNat ++ leBytes 32 unit.hashMerkleRoot.toNat := ⟨_, rfl⟩
  have front_length : front.length = 68 := by simp [front_eq]
  have data : workData unit = byteReverse front ++ (byteReverse (leBytes 4 unit.nTime.toNat) ++
      (byteReverse (leBytes 4 unit.nBits.toNat) ++ (byteReverse (leBytes 4 unit.nNonce.toNat) ++
        byteReverse hashPadding))) := by
    rw [← byteReverse_append 1 (by simp), ← byteReverse_append 1 (by simp),
      ← byteReverse_append 1 (by simp), ← byteReverse_append 17 (by simp [front_length]),
      workData, CBlock.writeHeader, front_eq]
    simp only [List.append_assoc]
  have raw : byteReverse vchData = front ++ (byteReverse time ++ (leBytes 4 unit.nBits.toNat ++
      (byteReverse nonce ++ hashPadding))) := by
    rw [changed, take_altered (by simp [front_length]) (by simp) (by simp) (by simp) data,
      byteReverse_append 17 (by simp [front_length]), byteReverse_append 1 (by simp [time_length]),
      byteReverse_append 1 (by simp), byteReverse_append 1 (by simp [nonce_length]),
      byteReverse_byteReverse, byteReverse_byteReverse, byteReverse_byteReverse]
  have length : vchData.length = 128 := by
    rw [← length_byteReverse, raw]
    simp [front_length, time_length, nonce_length, hashPadding]
  have time_eq : ((byteReverse vchData).drop 68).take 4 = byteReverse time := by
    rw [raw, List.drop_left' front_length]
    exact List.take_left' (by simp [time_length])
  have nonce_eq : ((byteReverse vchData).drop 76).take 4 = byteReverse nonce := by
    rw [raw, ← List.append_assoc, ← List.append_assoc,
      List.drop_left' (by simp [front_length, time_length])]
    exact List.take_left' (by simp [nonce_length])
  have root_eq : ((byteReverse vchData).drop 36).take 32 =
      leBytes 32 unit.hashMerkleRoot.toNat := by
    rw [raw, front_eq, List.append_assoc (leBytes 4 _ ++ _), List.drop_left' (by simp)]
    exact List.take_left' (by simp)
  refine ⟨length, ?_, ?_⟩
  · simp only [readWork, root_eq]
    rw [ofLE_leBytes_of_lt (by simpa using unit.hashMerkleRoot.isLt)]
    simp
  · have whole : byteReverse vchData = (front ++ (byteReverse time ++
        (leBytes 4 unit.nBits.toNat ++ byteReverse nonce))) ++ hashPadding := by
      rw [raw]
      simp only [List.append_assoc]
    simp only [readWork, time_eq, nonce_eq, CBlock.writeHeader]
    rw [leBytes_read (by simp [time_length]), leBytes_read (by simp [nonce_length]), whole,
      List.take_left' (by simp [front_length, time_length, nonce_length]), front_eq]
    simp only [List.append_assoc]

/-! ## What a template keeps -/

/-- Scripts make the same transactions of both. -/
def SameButScript (vtx vtx' : List CTransaction) : Prop :=
  ∀ scriptSig, withCoinBaseScript scriptSig vtx = withCoinBaseScript scriptSig vtx'

private theorem CTransaction.withScriptSig_eq_none {tx : CTransaction} {scriptSig : CScript} :
    tx.withScriptSig scriptSig = none ↔ tx.vin = [] := by
  rw [withScriptSig]
  cases tx.vin <;> simp

private theorem CTransaction.withScriptSig_twice {tx written : CTransaction} {scriptSig : CScript}
    (write : tx.withScriptSig scriptSig = some written) (other : CScript) :
    written.withScriptSig other = tx.withScriptSig other := by
  rw [withScriptSig] at write
  cases inputs : tx.vin with
  | nil => simp [inputs] at write
  | cons txin vin =>
      rw [inputs] at write
      rw [← Option.some.inj write, withScriptSig, withScriptSig, inputs]

private theorem sameButScript_of_write {vtx written : List CTransaction} {scriptSig : CScript}
    (write : withCoinBaseScript scriptSig vtx = some written) : SameButScript written vtx := by
  cases vtx with
  | nil => simp [withCoinBaseScript] at write
  | cons tx vtx =>
      obtain ⟨coinBase, made, rfl⟩ := Option.map_eq_some_iff.mp write
      intro other
      rw [withCoinBaseScript, withCoinBaseScript, CTransaction.withScriptSig_twice made]

private theorem sameButScript_cons {tx own : CTransaction}
    (same : tx.withScriptSig [] = own.withScriptSig []) (vtx : List CTransaction) :
    SameButScript (tx :: vtx) (own :: vtx) := by
  intro scriptSig
  have both : tx.withScriptSig scriptSig = own.withScriptSig scriptSig := by
    cases emptied : tx.withScriptSig [] with
    | none =>
        have own_emptied := same ▸ emptied
        rw [CTransaction.withScriptSig_eq_none] at emptied own_emptied
        rw [CTransaction.withScriptSig_eq_none.mpr emptied,
          CTransaction.withScriptSig_eq_none.mpr own_emptied]
    | some written =>
        exact (CTransaction.withScriptSig_twice emptied scriptSig).symm.trans
          (CTransaction.withScriptSig_twice (same ▸ emptied) scriptSig)
  rw [withCoinBaseScript, withCoinBaseScript, both]

/-- The blocks differ at most in the time, the nonce, the root and the script of the coinbase. -/
structure SameTemplate (block block' : CBlock) : Prop where
  nVersion : block'.nVersion = block.nVersion
  hashPrevBlock : block'.hashPrevBlock = block.hashPrevBlock
  nBits : block'.nBits = block.nBits
  vtx : SameButScript block'.vtx block.vtx

private theorem SameTemplate.refl (block : CBlock) : SameTemplate block block :=
  ⟨rfl, rfl, rfl, fun _ => rfl⟩

/-- With a script of a coinbase the first transaction can be read back. -/
def CoinBaseSized (vtx : List CTransaction) : Prop :=
  ∀ scriptSig written, scriptSig.length ≤ 100 → withCoinBaseScript scriptSig vtx = some written →
    ∀ tx ∈ written.head?, tx.Sized

private theorem CoinBaseSized.of_same {vtx vtx' : List CTransaction} (sized : CoinBaseSized vtx)
    (same : SameButScript vtx' vtx) : CoinBaseSized vtx' :=
  fun scriptSig written short write => sized scriptSig written short (same scriptSig ▸ write)

private theorem coinBaseSized_of_createsBlock {crypto : Crypto} {fTestNet : Bool}
    {pindexBest : BlockChain} {block : CBlock}
    (creates : CreatesBlock crypto fTestNet pindexBest block) : CoinBaseSized block.vtx := by
  obtain ⟨env, context, vchPubKey, -, -, -, short_key, script, created⟩ := creates
  simp only [createNewBlock] at created
  split at created
  · simp at created
  simp only [except_bind_eq_ok, pure_eq_ok] at created
  obtain ⟨assembly, -, nValue, -, nBits, -, rfl⟩ := created
  intro scriptSig written short write tx first
  simp only [withCoinBaseScript, coinBaseOf, CTransaction.withScriptSig, Option.map_some,
    Option.some.injEq] at write
  rw [← write, List.head?_cons, Option.mem_some_iff] at first
  have key := length_pushData_le vchPubKey
  have limit : maxSize = 0x02000000 := rfl
  rw [← first]
  refine ⟨?_, ?_, ?_, ?_⟩
  · simp [limit]
  · simp [limit]
  · intro txin mem
    rw [List.mem_singleton.mp mem]
    simp only [limit]
    omega
  · intro txout mem
    rw [List.mem_singleton.mp mem]
    simp only [script, List.length_append, List.length_singleton, limit]
    omega

/-! ## Outstanding units -/

/-- A unit can be made again from its template. -/
def GetWork.Keeps (crypto : Crypto) (state : GetWork) (unit : CBlock) : Prop :=
  unit.hashMerkleRoot = buildMerkleTree crypto unit.vtx ∧ (∀ tx ∈ unit.vtx.head?, tx.Sized) ∧
    ∃ pblock scriptSig block, state.saved unit.hashMerkleRoot = some (pblock, scriptSig) ∧
      state.vNewBlock[pblock]? = some block ∧ block.nVersion = unit.nVersion ∧
      block.hashPrevBlock = unit.hashPrevBlock ∧ block.nBits = unit.nBits ∧
      withCoinBaseScript scriptSig block.vtx = some unit.vtx

/-- The units of a command can be made again, and belong to the best block. -/
structure GetWork.Sound (crypto : Crypto) (pindexBest : BlockChain) (units : List CBlock)
    (state : GetWork) : Prop where
  keeps : ∀ unit ∈ units, state.Keeps crypto unit
  current : units ≠ [] → state.pindexPrev = pindexBest
  sized : ∀ block ∈ state.vNewBlock, CoinBaseSized block.vtx

namespace GetWork

variable {crypto : Crypto} {fTestNet : Bool} {pindexBest : BlockChain} {units : List CBlock}
  {state after : GetWork} {unit : CBlock}

/-- A unit stays where its entry stays and its template is the same. -/
private theorem Keeps.of_blocks (kept : state.Keeps crypto unit)
    (saved : after.saved unit.hashMerkleRoot = state.saved unit.hashMerkleRoot)
    (blocks : ∀ pblock scriptSig block, state.saved unit.hashMerkleRoot = some (pblock, scriptSig) →
      state.vNewBlock[pblock]? = some block →
        ∃ block', after.vNewBlock[pblock]? = some block' ∧ SameTemplate block block') :
    after.Keeps crypto unit := by
  obtain ⟨root, sized, pblock, scriptSig, block, entry, found, nVersion, hashPrevBlock, nBits,
    vtx⟩ := kept
  obtain ⟨block', found', same⟩ := blocks pblock scriptSig block entry found
  refine ⟨root, sized, pblock, scriptSig, block', saved.trans entry, found', ?_, ?_, ?_, ?_⟩
  · exact same.nVersion.trans nVersion
  · exact same.hashPrevBlock.trans hashPrevBlock
  · exact same.nBits.trans nBits
  · exact (same.vtx scriptSig).trans vtx

/-- A block that is written where the same template was keeps every unit. -/
private theorem Sound.set (sound : state.Sound crypto pindexBest units) {pblock : Nat}
    {block block' : CBlock} (found : state.vNewBlock[pblock]? = some block)
    (same : SameTemplate block block') :
    ({ state with vNewBlock := state.vNewBlock.set pblock block' } : GetWork).Sound crypto
      pindexBest units where
  keeps unit mem := by
    refine (sound.keeps unit mem).of_blocks rfl fun other scriptSig old entry old_found => ?_
    by_cases here : pblock = other
    · subst here
      obtain rfl := Option.some.inj (found.symm.trans old_found)
      have inside := (List.getElem?_eq_some_iff.mp found).1
      exact ⟨block', List.getElem?_set_self inside, same⟩
    · exact ⟨old, (List.getElem?_set_ne here).trans old_found, .refl old⟩
  current := sound.current
  sized other mem := by
    rcases List.mem_or_eq_of_mem_set mem with old | rfl
    · exact sound.sized other old
    · exact (sound.sized block (List.mem_of_getElem? found)).of_same same.vtx

/-- The block of a request is the one that was in use, or a new one behind those of the units. -/
private theorem Sound.updateBlock (sound : state.Sound crypto pindexBest units)
    {arrival : WorkArrival} (valid : state.rebuilds pindexBest arrival = true →
      CreatesBlock crypto fTestNet pindexBest arrival.created) :
    (state.updateBlock pindexBest arrival).Sound crypto pindexBest units ∧
      (state.updateBlock pindexBest arrival).pindexPrev = pindexBest ∧
      (state.rebuilds pindexBest arrival = false ∧
          state.updateBlock pindexBest arrival = state ∨
        ∀ unit ∈ units, ∀ pblock scriptSig,
          (state.updateBlock pindexBest arrival).saved unit.hashMerkleRoot =
            some (pblock, scriptSig) →
          ∀ template, (state.updateBlock pindexBest arrival).template = some template →
            pblock < template.1) := by
  by_cases rebuilt : state.rebuilds pindexBest arrival = true
  · have created := coinBaseSized_of_createsBlock (valid rebuilt)
    obtain ⟨base, base_eq⟩ : ∃ base, base =
      if state.pindexPrev ≠ pindexBest then { state with mapNewBlock := [], vNewBlock := [] }
      else state := ⟨_, rfl⟩
    have base_sound : base.Sound crypto pindexBest units := by
      by_cases moved : state.pindexPrev ≠ pindexBest
      · have none_left : units = [] := by
          by_contra some_left
          exact moved (sound.current some_left)
        rw [base_eq, if_pos moved, none_left]
        exact ⟨by simp, by simp, by simp⟩
      · rw [base_eq, if_neg moved]
        exact sound
    have updated : state.updateBlock pindexBest arrival =
        { base with
          nTransactionsUpdatedLast := arrival.nTransactionsUpdated
          pindexPrev := pindexBest
          nStart := arrival.nNow
          pblock := some base.vNewBlock.length
          vNewBlock := base.vNewBlock ++ [arrival.created] } := by
      rw [GetWork.updateBlock, if_pos rebuilt, base_eq]
    have inside (pblock : Nat) (block : CBlock) (found : base.vNewBlock[pblock]? = some block) :
        pblock < base.vNewBlock.length := (List.getElem?_eq_some_iff.mp found).1
    refine ⟨?_, by rw [updated], .inr ?_⟩
    · rw [updated]
      refine ⟨fun unit mem => ?_, fun _ => rfl, fun block mem => ?_⟩
      · refine (base_sound.keeps unit mem).of_blocks rfl fun pblock scriptSig block _ found => ?_
        exact ⟨block, (List.getElem?_append_left (inside pblock block found)).trans found,
          .refl block⟩
      · rcases List.mem_append.mp mem with old | new
        · exact base_sound.sized block old
        · rw [List.mem_singleton.mp new]
          exact created
    · intro unit mem pblock scriptSig entry template located
      obtain ⟨-, -, kept, keptScript, block, kept_entry, found, -⟩ := base_sound.keeps unit mem
      rw [updated] at entry located
      have same := Option.some.inj (entry.symm.trans kept_entry)
      obtain ⟨block, -, rfl⟩ := Option.map_eq_some_iff.mp located
      rw [(Prod.mk.inj same).1]
      exact inside kept _ found
  · have unchanged : state.updateBlock pindexBest arrival = state := if_neg rebuilt
    have same_best : state.pindexPrev = pindexBest := by
      by_contra moved
      simp [rebuilds, moved] at rebuilt
    rw [unchanged]
    exact ⟨sound, same_best, .inl ⟨by simpa using rebuilt, rfl⟩⟩

/-- What `issue` hands out and leaves. -/
private theorem issue_eq_some {hashPrevBlock : UInt256} {pblock : Nat} {block : CBlock}
    (issued : state.issue crypto hashPrevBlock pblock block = some (unit, after)) :
    ∃ scriptSig vtx, scriptSig.length ≤ 100 ∧ withCoinBaseScript scriptSig block.vtx = some vtx ∧
      unit = { block with vtx, hashMerkleRoot := buildMerkleTree crypto vtx } ∧
      after.pindexPrev = state.pindexPrev ∧
      after.vNewBlock = state.vNewBlock.set pblock unit ∧
      after.mapNewBlock = (unit.hashMerkleRoot, pblock, scriptSig) :: state.mapNewBlock := by
  obtain ⟨made, incremented, same⟩ := Option.map_eq_some_iff.mp issued
  rw [incrementExtraNonce] at incremented
  split_ifs at incremented with long
  obtain ⟨vtx, written, rfl⟩ := Option.map_eq_some_iff.mp incremented
  obtain ⟨rfl, rfl⟩ := Prod.mk.inj same
  exact ⟨_, vtx, Nat.not_lt.mp long, written, rfl, rfl, rfl, rfl⟩

/-- A request keeps the units and adds one, unless it changes the difficulty of their template. -/
private theorem Sound.issue (sound : state.Sound crypto pindexBest units)
    (current : state.pindexPrev = pindexBest) {hashPrevBlock : UInt256} {pblock : Nat}
    {block block' : CBlock} (located : state.template = some (pblock, block))
    (issued : state.issue crypto hashPrevBlock pblock block' = some (unit, after))
    (vtx : block'.vtx = block.vtx) (nVersion : block'.nVersion = block.nVersion)
    (prev : block'.hashPrevBlock = block.hashPrevBlock)
    (unused : block'.nBits = block.nBits ∨ ∀ unit ∈ units, ∀ other scriptSig,
      state.saved unit.hashMerkleRoot = some (other, scriptSig) → other < pblock)
    (free : ((unit :: units).map CBlock.hashMerkleRoot).Nodup) :
    after.Sound crypto pindexBest (unit :: units) := by
  obtain ⟨scriptSig, written, short, write, unit_eq, after_prev, blocks, entries⟩ :=
    issue_eq_some issued
  obtain ⟨found_at, found, same_pair⟩ : ∃ found_at, state.pblock = some found_at ∧
      (state.vNewBlock[found_at]?).map (found_at, ·) = some (pblock, block) :=
    Option.bind_eq_some_iff.mp located
  obtain ⟨old, old_found, old_eq⟩ := Option.map_eq_some_iff.mp same_pair
  obtain ⟨rfl, rfl⟩ := Prod.mk.inj old_eq
  have inside := (List.getElem?_eq_some_iff.mp old_found).1
  have unit_found : after.vNewBlock[found_at]? = some unit := by
    rw [blocks]
    exact List.getElem?_set_self inside
  have same_script : SameButScript unit.vtx old.vtx := by
    rw [unit_eq, ← vtx]
    exact sameButScript_of_write write
  have old_sized := sound.sized old (List.mem_of_getElem? old_found)
  have unit_sized : CoinBaseSized unit.vtx := old_sized.of_same same_script
  have made : withCoinBaseScript scriptSig unit.vtx = some unit.vtx := by
    rw [same_script scriptSig, ← vtx, write, unit_eq]
  refine ⟨fun other mem => ?_, fun _ => after_prev.trans current, fun other mem => ?_⟩
  · rcases List.mem_cons.mp mem with rfl | earlier
    · refine ⟨by rw [unit_eq], unit_sized scriptSig _ short made, found_at, scriptSig, other, ?_,
        unit_found, rfl, rfl, rfl, made⟩
      rw [saved, entries]
      simp
    · have different : unit.hashMerkleRoot ≠ other.hashMerkleRoot := fun same => by
        rw [List.map_cons, List.nodup_cons] at free
        exact free.1 (same ▸ List.mem_map_of_mem earlier)
      have entry : after.saved other.hashMerkleRoot = state.saved other.hashMerkleRoot := by
        rw [saved, saved, entries, List.find?_cons_of_neg (by simpa using different)]
      refine (sound.keeps other earlier).of_blocks entry fun at_other script kept saved found => ?_
      by_cases here : found_at = at_other
      · subst here
        obtain rfl := Option.some.inj (old_found.symm.trans found)
        rcases unused with nBits | fresh
        · refine ⟨unit, unit_found, ?_, ?_, ?_, same_script⟩
          · rw [unit_eq, ← nVersion]
          · rw [unit_eq, ← prev]
          · rw [unit_eq, ← nBits]
        · exact absurd (fresh other earlier found_at script saved) (Nat.lt_irrefl _)
      · rw [blocks]
        exact ⟨kept, (List.getElem?_set_ne here).trans found, .refl kept⟩
  · rw [blocks] at mem
    rcases List.mem_or_eq_of_mem_set mem with earlier | rfl
    · exact sound.sized other earlier
    · exact unit_sized

/-- Work that comes back keeps the units if the coinbase it leaves differs in the script only. -/
private theorem Sound.takeBack (sound : state.Sound crypto pindexBest units)
    {restore : CScript → List CTransaction → Option (List CTransaction)} {vchData : List UInt8}
    {reply : WorkReply}
    (harmless : ∀ pblock scriptSig block vtx,
      state.saved (readWork vchData).hashMerkleRoot = some (pblock, scriptSig) →
      state.vNewBlock[pblock]? = some block → restore scriptSig block.vtx = some vtx →
        SameButScript vtx block.vtx)
    (done : state.takeBack crypto restore vchData = some (reply, after)) :
    after.Sound crypto pindexBest units := by
  rw [GetWork.takeBack] at done
  split_ifs at done with length
  · obtain ⟨-, rfl⟩ := Prod.mk.inj (Option.some.inj done)
    exact sound
  dsimp only at done
  cases entry : state.saved (readWork vchData).hashMerkleRoot with
  | none =>
      rw [entry] at done
      obtain ⟨-, rfl⟩ := Prod.mk.inj (Option.some.inj done)
      exact sound
  | some pair =>
      rw [entry] at done
      obtain ⟨block, found, done⟩ := Option.bind_eq_some_iff.mp done
      obtain ⟨vtx, restored, done⟩ := Option.bind_eq_some_iff.mp done
      obtain ⟨-, rfl⟩ := Prod.mk.inj (Option.some.inj done)
      exact sound.set found ⟨rfl, rfl, rfl, harmless _ _ block vtx entry found restored⟩

/-- A unit that can be made again is checked with the header that comes back. -/
private theorem Keeps.takeBack (kept : state.Keeps crypto unit)
    {restore : CScript → List CTransaction → Option (List CTransaction)} {vchData : List UInt8}
    (altered : Altered (workData unit) vchData)
    (restores : ∀ scriptSig vtx, withCoinBaseScript scriptSig vtx = some unit.vtx →
      restore scriptSig vtx = some unit.vtx) :
    ChecksHeader vchData (state.takeBack crypto restore vchData) := by
  obtain ⟨root, -, pblock, scriptSig, block, entry, found, nVersion, hashPrevBlock, nBits, vtx⟩ :=
    kept
  obtain ⟨length, same_root, header⟩ := readWork_altered altered
  rw [← same_root] at entry
  rw [GetWork.takeBack, if_neg (not_not.mpr length)]
  dsimp only
  rw [entry]
  dsimp only
  rw [found, Option.bind_eq_bind, Option.bind_some, restores scriptSig block.vtx vtx]
  refine ⟨_, _, rfl, ?_⟩
  rw [header]
  simp only [CBlock.writeHeader, nVersion, hashPrevBlock, nBits, ← root]

/-- `UpdateTime` writes the time, and on the test network the difficulty. -/
private theorem updateTime_eq_some {arrival : WorkArrival} {block block' : CBlock}
    (updated : state.updateTime fTestNet arrival block = some block') :
    block'.vtx = block.vtx ∧ block'.nVersion = block.nVersion ∧
      block'.hashPrevBlock = block.hashPrevBlock ∧ (block'.nBits = block.nBits ∨
        fTestNet = true ∧ getNextWorkRequired fTestNet state.pindexPrev (state.workTime arrival) =
          .ok block'.nBits) := by
  simp only [updateTime] at updated
  cases fTestNet with
  | false =>
      obtain rfl := Option.some.inj updated
      exact ⟨rfl, rfl, rfl, .inl rfl⟩
  | true =>
      simp only [if_true] at updated
      cases work : getNextWorkRequired true state.pindexPrev (state.workTime arrival) with
      | error failure => simp [work] at updated
      | ok nBits =>
          rw [work] at updated
          obtain rfl := Option.some.inj updated
          exact ⟨rfl, rfl, rfl, .inr ⟨rfl, rfl⟩⟩

end GetWork

/-! ## Every run -/

namespace WorkServer

variable {crypto : Crypto} {fTestNet : Bool} {server after : WorkServer} {call : WorkCall}

/-- The units of both commands can be made again. -/
def Sound (crypto : Crypto) (server : WorkServer) : Prop :=
  server.work.Sound crypto server.pindexBest server.units ∧
    server.workex.Sound crypto server.pindexBest server.unitsex

private theorem sound_start : start.Sound crypto :=
  ⟨⟨by simp [start], by simp [start], by simp [start, GetWork.start]⟩,
    ⟨by simp [start], by simp [start], by simp [start, GetWork.start]⟩⟩

private theorem sound_newBest (sound : server.Sound crypto) (pindexBest : BlockChain) :
    ({ server with pindexBest, units := [], unitsex := [] } : WorkServer).Sound crypto :=
  ⟨⟨by simp, by simp, sound.1.sized⟩, ⟨by simp, by simp, sound.2.sized⟩⟩

private theorem sound_getwork (sound : server.Sound crypto) {arrival : WorkArrival}
    (kept : server.KeepsTemplate fTestNet (.getwork arrival))
    (valid : server.Valid crypto fTestNet (.getwork arrival))
    (done : server.next crypto fTestNet (.getwork arrival) = some after)
    (free : after.CollisionFree) : after.Sound crypto := by
  obtain ⟨⟨unit, work⟩, worked, rfl⟩ := Option.map_eq_some_iff.mp done
  obtain ⟨⟨pblock, block⟩, located, worked⟩ := Option.bind_eq_some_iff.mp worked
  obtain ⟨block', updated, issued⟩ := Option.bind_eq_some_iff.mp worked
  obtain ⟨updated_sound, current, source⟩ := sound.1.updateBlock valid
  obtain ⟨vtx, nVersion, prev, nBits⟩ := GetWork.updateTime_eq_some updated
  refine ⟨updated_sound.issue current located issued vtx nVersion prev ?_ free.1, sound.2⟩
  rcases source with ⟨in_use, unchanged⟩ | fresh
  · left
    rcases nBits with same | ⟨test, work_required⟩
    · exact same
    · rw [unchanged] at located work_required
      have same := (kept test in_use pblock block located).symm.trans work_required
      exact (Except.ok.inj same).symm
  · exact .inr fun unit mem other scriptSig entry => fresh unit mem other scriptSig entry _ located

private theorem sound_getworkex (sound : server.Sound crypto) {arrival : WorkArrival}
    (valid : server.Valid crypto fTestNet (.getworkex arrival))
    (done : server.next crypto fTestNet (.getworkex arrival) = some after)
    (free : after.CollisionFree) : after.Sound crypto := by
  obtain ⟨⟨unit, workex⟩, worked, rfl⟩ := Option.map_eq_some_iff.mp done
  obtain ⟨⟨pblock, block⟩, located, issued⟩ := Option.bind_eq_some_iff.mp worked
  obtain ⟨updated_sound, current, -⟩ := sound.2.updateBlock valid
  exact ⟨sound.1, updated_sound.issue current located issued rfl rfl rfl (.inl rfl) free.2⟩

private theorem sound_submit (sound : server.Sound crypto) {vchData : List UInt8}
    (done : server.next crypto fTestNet (.submit vchData) = some after) : after.Sound crypto := by
  obtain ⟨⟨reply, work⟩, worked, rfl⟩ := Option.map_eq_some_iff.mp done
  exact ⟨sound.1.takeBack (fun _ _ _ _ _ _ write => sameButScript_of_write write) worked, sound.2⟩

private theorem sound_submitex (sound : server.Sound crypto) {vchData coinbase : List UInt8}
    (kept : server.KeepsTemplate fTestNet (.submitex vchData coinbase))
    (done : server.next crypto fTestNet (.submitex vchData coinbase) = some after) :
    after.Sound crypto := by
  obtain ⟨⟨reply, workex⟩, worked, rfl⟩ := Option.map_eq_some_iff.mp done
  refine ⟨sound.1, sound.2.takeBack (fun pblock scriptSig block vtx entry found restored => ?_)
    worked⟩
  split_ifs at restored with absent
  · exact sameButScript_of_write restored
  · cases own : block.vtx with
    | nil => simp [own, GetWork.readCoinBase] at restored
    | cons tx rest =>
        rw [own] at restored
        obtain ⟨⟨read, behind⟩, decoded, rfl⟩ := Option.map_eq_some_iff.mp restored
        have same := kept absent pblock scriptSig block read behind entry found decoded tx
          (by simp [own])
        exact sameButScript_cons same rest

/-- A call that keeps the templates keeps the units. -/
theorem Sound.next (sound : server.Sound crypto) (kept : server.KeepsTemplate fTestNet call)
    (valid : server.Valid crypto fTestNet call)
    (done : server.next crypto fTestNet call = some after) (free : after.CollisionFree) :
    after.Sound crypto := by
  cases call with
  | newBest pindexBest =>
      obtain rfl := Option.some.inj done
      exact sound_newBest sound pindexBest
  | getwork arrival => exact sound_getwork sound kept valid done free
  | getworkex arrival => exact sound_getworkex sound valid done free
  | submit vchData => exact sound_submit sound done
  | submitex vchData coinbase => exact sound_submitex sound kept done

/-- The coinbase that was handed out makes the unit again. -/
private theorem readCoinBase_coinbaseData {unit : CBlock} {scriptSig : CScript}
    {vtx : List CTransaction} (sized : ∀ tx ∈ unit.vtx.head?, tx.Sized)
    (write : withCoinBaseScript scriptSig vtx = some unit.vtx) :
    GetWork.readCoinBase (coinbaseData unit) vtx = some unit.vtx := by
  cases vtx with
  | nil => simp [withCoinBaseScript] at write
  | cons own rest =>
      obtain ⟨tx, -, made⟩ := Option.map_eq_some_iff.mp write
      have read : CTransaction.read tx.write = some (tx, []) := by
        have reads := CTransaction.reads_read (sized tx (by simp [← made])) []
        rwa [List.append_nil] at reads
      simp only [coinbaseData, ← made, List.head?_cons, Option.map_some, Option.getD_some,
        GetWork.readCoinBase, read]

end WorkServer

/-! ## A coinbase that stays -/

/-- A key of the pool and an empty pool of transactions. -/
def workMiner : MinerContext :=
  { sampleMiner [] [] with scriptPubKey := pushData [2, 7] ++ [UInt8.ofNat OP_CHECKSIG] }

/-- The block that is created on the main net. -/
def workTemplate : CBlock :=
  match createNewBlock { minerEnv [] with fTestNet := false } workMiner with
  | .ok block => block
  | .error _ => sampleBlock 0 0 []

/-- The commands after some calls. -/
def serverAfter (calls : List WorkCall) : WorkServer :=
  calls.foldl (fun server call => (server.next sampleCrypto false call).getD server) .start

/-- A request on a new best block. -/
def workArrival : WorkArrival where
  nTransactionsUpdated := 1
  nNow := 1400000130
  nAdjustedTime := 1400000130
  created := workTemplate

/-- Both commands have issued a unit. -/
def issuedCalls : List WorkCall :=
  [.newBest workMiner.pindexBest, .getwork workArrival, .getworkex workArrival]

/-- The unit of `getworkex`. -/
def workUnit : CBlock := (serverAfter issuedCalls).unitsex.headD workTemplate

/-- The coinbase of the unit with another output script. -/
def otherCoinBase : List UInt8 :=
  (workUnit.vtx.head?.map fun tx =>
    CTransaction.write { tx with
      vout := tx.vout.map fun txout => { txout with scriptPubKey := [0x51] } }).getD []

/-- The unit has come back with that coinbase. -/
def replacedCalls : List WorkCall :=
  issuedCalls ++ [.submitex (workData workUnit) otherCoinBase]

private theorem createsBlock_workTemplate :
    CreatesBlock sampleCrypto false workMiner.pindexBest workTemplate := by
  obtain ⟨block, created⟩ : ∃ block,
      createNewBlock { minerEnv [] with fTestNet := false } workMiner = .ok block :=
    exists_of_isOk (by decide +kernel)
  refine ⟨{ minerEnv [] with fTestNet := false }, workMiner, [2, 7], rfl, rfl, rfl, by decide, rfl,
    ?_⟩
  rw [workTemplate, created]

namespace WorkServer

variable {condition : WorkServer → WorkCall → Prop}

private theorem run_serverAfter_concat {calls : List WorkCall} {call : WorkCall}
    (before : Run sampleCrypto false condition (serverAfter calls))
    (meets : condition (serverAfter calls) call)
    (valid : (serverAfter calls).Valid sampleCrypto false call)
    (done : ((serverAfter calls).next sampleCrypto false call).isSome = true)
    (free : (serverAfter (calls ++ [call])).CollisionFree) :
    Run sampleCrypto false condition (serverAfter (calls ++ [call])) := by
  obtain ⟨after, next⟩ := Option.isSome_iff_exists.mp done
  have same : serverAfter (calls ++ [call]) = after := by
    simp only [serverAfter, List.foldl_append, List.foldl_cons, List.foldl_nil]
    rw [← serverAfter, next, Option.getD_some]
  rw [same] at free ⊢
  exact .call before meets valid next free

private theorem run_issuedCalls
    (meets : ∀ front call back, issuedCalls = front ++ call :: back →
      condition (serverAfter front) call) :
    Run sampleCrypto false condition (serverAfter issuedCalls) := by
  have first : Run sampleCrypto false condition
      (serverAfter ([] ++ [.newBest workMiner.pindexBest])) :=
    run_serverAfter_concat .start (meets [] _ _ rfl) trivial (by decide +kernel)
      ⟨by decide +kernel, by decide +kernel⟩
  have second := run_serverAfter_concat first (meets [_] (.getwork workArrival) [_] rfl)
    (fun _ => createsBlock_workTemplate) (by decide +kernel)
    ⟨by decide +kernel, by decide +kernel⟩
  have creates : CreatesBlock sampleCrypto false (serverAfter [.newBest workMiner.pindexBest,
      .getwork workArrival]).pindexBest workArrival.created := by
    have best : (serverAfter [.newBest workMiner.pindexBest, .getwork workArrival]).pindexBest =
        workMiner.pindexBest := by decide +kernel
    rw [best]
    exact createsBlock_workTemplate
  exact run_serverAfter_concat second (meets [_, _] (.getworkex workArrival) [] rfl)
    (fun _ => creates) (by decide +kernel)
    ⟨by decide +kernel, by decide +kernel⟩

end WorkServer

end FooCoin
