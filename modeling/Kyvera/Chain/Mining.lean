import Kyvera.Chain.Hash

/-!
# Mining

The emission schedule, the adjustment of the difficulty, and the search for a nonce.
-/

namespace Kyvera

/-- Units in one KYV. -/
def KYV_UNITS : UInt64 := 1000000000

/-- Genesis block reward: 50 KYV. -/
def GENESIS_BLOCK_REWARD : UInt64 := 50 * KYV_UNITS

/-- Epoch blocks between two halvings. -/
def HALVING_INTERVAL : UInt64 := 290000

/-- The block reward at an epoch height.  The number of halvings is cut to 32 bits before the
shift, and a shift by 64 or more gives zero. -/
def calculateBlockReward (epochBlockHeight : UInt64) : UInt64 :=
  let halvingCount := (epochBlockHeight / HALVING_INTERVAL).toUInt32
  if halvingCount.toNat < 64 then GENESIS_BLOCK_REWARD >>> halvingCount.toUInt64 else 0

/-! ## Difficulty -/

/-- Target time between epoch blocks, and between micro blocks, in seconds. -/
def EPOCH_BLOCK_TARGET_SECONDS : UInt64 := 600

def MICRO_BLOCK_TARGET_SECONDS : UInt64 := 3

/-- How many recent blocks decide on an adjustment. -/
def DIFFICULTY_WINDOW : ℕ := 144

/-- Bounds of the difficulty. -/
def MIN_DIFFICULTY : UInt32 := 1

def MAX_DIFFICULTY : UInt32 := 64

/-- The target time of a block type. -/
def targetSeconds (isEpochBlock : Bool) : ℤ :=
  if isEpochBlock then EPOCH_BLOCK_TARGET_SECONDS.toNat else MICRO_BLOCK_TARGET_SECONDS.toNat

/-- The time from `first` to `last`; `none` is the overflow of the difference, a panic. -/
def timeBetween (first last : ℤ) : Option ℤ :=
  if -2 ^ 63 ≤ last - first ∧ last - first < 2 ^ 63 then some (last - first) else none

/-- One more than a difficulty; `none` is the overflow, a panic. -/
def raiseDifficulty (difficulty : UInt32) : Option UInt32 :=
  if difficulty.toNat + 1 < 2 ^ 32 then some (difficulty + 1) else none

/-- One less than a difficulty, unless it is zero. -/
def lowerDifficulty (difficulty : UInt32) : UInt32 := if difficulty = 0 then 0 else difficulty - 1

/-- The difficulty within its bounds. -/
def clampDifficulty (difficulty : UInt32) : UInt32 :=
  if difficulty < MIN_DIFFICULTY then MIN_DIFFICULTY
  else if difficulty > MAX_DIFFICULTY then MAX_DIFFICULTY
  else difficulty

/-- The adjusted difficulty for an average time between blocks, before it is clamped. -/
def adjustDifficulty (currentDifficulty : UInt32) (averageSeconds targetSeconds : ℤ) :
    Option UInt32 :=
  if averageSeconds < targetSeconds.tdiv 2 then raiseDifficulty currentDifficulty
  else if averageSeconds < targetSeconds then raiseDifficulty currentDifficulty
  else if averageSeconds > targetSeconds * 2 then some (lowerDifficulty currentDifficulty)
  else if averageSeconds > targetSeconds then some (lowerDifficulty currentDifficulty)
  else some currentDifficulty

/-- The timestamps of the blocks that decide on an adjustment. -/
def recentTimestamps (timestamps : List ℤ) : List ℤ :=
  let window := min timestamps.length DIFFICULTY_WINDOW
  timestamps.drop (timestamps.length - window)

/-- The next difficulty, from the timestamps of recent blocks in chronological order.  The average
is the quotient rounded towards zero. -/
def calculateNextDifficulty (currentDifficulty : UInt32) (timestamps : List ℤ)
    (isEpochBlock : Bool) : Option UInt32 :=
  if timestamps.length < 2 then some currentDifficulty
  else do
    let recent := recentTimestamps timestamps
    let last ← recent.getLast?
    let first ← recent.head?
    let elapsed ← timeBetween first last
    let blockCount : ℤ := recent.length - 1
    if blockCount = 0 then some currentDifficulty
    else do
      let averageSeconds := elapsed.tdiv blockCount
      let newDifficulty ←
        adjustDifficulty currentDifficulty averageSeconds (targetSeconds isEpochBlock)
      return clampDifficulty newDifficulty

/-! ## Proof of work -/

/-- The result of a successful search. -/
structure MinedBlock where
  nonce : UInt64
  hash : String
  attempts : UInt64
  deriving DecidableEq, Repr

/-- The search from `nonce` on, with as many attempts as are left. -/
def mineFrom (H : Sha3) (header : BlockHeader) : ℕ → UInt64 → Option MinedBlock
  | 0, _ => none
  | left + 1, nonce =>
      let hash := hashBlockHeader H header.index header.timestamp header.previousHash
        header.merkleRoot nonce header.difficulty header.isEpochBlock header.epochIndex
        header.stateRoot
      if meetsDifficulty hash header.difficulty then
        some { nonce := nonce, hash := hash, attempts := nonce + 1 }
      else mineFrom H header left (nonce + 1)

/-- Search the nonces below `maxAttempts` for a hash that meets the difficulty. -/
def mineBlock (H : Sha3) (header : BlockHeader) (maxAttempts : UInt64) : Option MinedBlock :=
  mineFrom H header maxAttempts.toNat 0

/-- Whether a hash meets the claimed difficulty. -/
def verifyProofOfWork (hash : String) (difficulty : UInt32) : Bool :=
  meetsDifficulty hash difficulty

theorem mineFrom_sound {H : Sha3} {header : BlockHeader} {left : ℕ} {nonce : UInt64}
    {mined : MinedBlock} (h : mineFrom H header left nonce = some mined) :
    ({ header with nonce := mined.nonce } : BlockHeader).computeHash H = mined.hash ∧
      meetsDifficulty mined.hash header.difficulty = true := by
  induction left generalizing nonce with
  | zero => cases h
  | succ left ih =>
      rw [mineFrom] at h
      split_ifs at h with hmeets
      · cases h
        exact ⟨rfl, hmeets⟩
      · exact ih h

/-- The hash that is found is the one of the header with the nonce that is found, and it meets the
difficulty of the header. -/
theorem mineBlock_sound {H : Sha3} {header : BlockHeader} {maxAttempts : UInt64}
    {mined : MinedBlock} (h : mineBlock H header maxAttempts = some mined) :
    ({ header with nonce := mined.nonce } : BlockHeader).computeHash H = mined.hash ∧
      meetsDifficulty mined.hash header.difficulty = true :=
  mineFrom_sound h

end Kyvera
