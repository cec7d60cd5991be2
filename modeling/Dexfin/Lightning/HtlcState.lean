import Mathlib.Data.Fintype.Basic

/-!
# HTLC states and their flags

`src/lightning/common/htlc_state.h` lists the twenty states an HTLC passes through, and
`common/htlc_state.c` gives each a word of flags: for each side whether a change is pending,
whether the HTLC is in that side's commitment, whether that side has revoked the previous
commitment, who offered the HTLC, and whether it was ever committed. The states of one
HTLC form one of four chains: an add or a removal, offered by us or by them.
-/

namespace Dexfin.Lightning

/-- `enum side`. -/
inductive Side
  | «local»
  | remote
  deriving DecidableEq, Repr

instance : Fintype Side :=
  ⟨⟨{Side.local, Side.remote}, by decide⟩, fun s => by cases s <;> decide⟩

/-- `!side`. -/
def Side.other : Side → Side
  | .local => .remote
  | .remote => .local

/-- The numeric value of the enumerator: `LOCAL = 0`, `REMOTE = 1`. -/
def Side.toNat : Side → ℕ
  | .local => 0
  | .remote => 1

@[simp] theorem Side.other_other (s : Side) : s.other.other = s := by
  cases s <;> rfl

@[simp] theorem Side.other_ne (s : Side) : s.other ≠ s := by
  cases s <;> decide

@[simp] theorem Side.ne_other (s : Side) : s ≠ s.other := by
  cases s <;> decide

/-- `enum htlc_state`, in the order of the source, which is also the numbering used by
`htlc->state++`. -/
inductive HtlcState
  | sentAddHtlc
  | sentAddCommit
  | rcvdAddRevocation
  | rcvdAddAckCommit
  | sentAddAckRevocation
  | rcvdRemoveHtlc
  | rcvdRemoveCommit
  | sentRemoveRevocation
  | sentRemoveAckCommit
  | rcvdRemoveAckRevocation
  | rcvdAddHtlc
  | rcvdAddCommit
  | sentAddRevocation
  | sentAddAckCommit
  | rcvdAddAckRevocation
  | sentRemoveHtlc
  | sentRemoveCommit
  | rcvdRemoveRevocation
  | rcvdRemoveAckCommit
  | sentRemoveAckRevocation
  deriving DecidableEq, Repr

namespace HtlcState

instance : Fintype HtlcState :=
  ⟨⟨{sentAddHtlc, sentAddCommit, rcvdAddRevocation, rcvdAddAckCommit, sentAddAckRevocation,
      rcvdRemoveHtlc, rcvdRemoveCommit, sentRemoveRevocation, sentRemoveAckCommit,
      rcvdRemoveAckRevocation, rcvdAddHtlc, rcvdAddCommit, sentAddRevocation, sentAddAckCommit,
      rcvdAddAckRevocation, sentRemoveHtlc, sentRemoveCommit, rcvdRemoveRevocation,
      rcvdRemoveAckCommit, sentRemoveAckRevocation}, by decide⟩,
    fun s => by cases s <;> decide⟩

/-- The numeric value of the enumerator. -/
def toNat : HtlcState → ℕ
  | sentAddHtlc => 0
  | sentAddCommit => 1
  | rcvdAddRevocation => 2
  | rcvdAddAckCommit => 3
  | sentAddAckRevocation => 4
  | rcvdRemoveHtlc => 5
  | rcvdRemoveCommit => 6
  | sentRemoveRevocation => 7
  | sentRemoveAckCommit => 8
  | rcvdRemoveAckRevocation => 9
  | rcvdAddHtlc => 10
  | rcvdAddCommit => 11
  | sentAddRevocation => 12
  | sentAddAckCommit => 13
  | rcvdAddAckRevocation => 14
  | sentRemoveHtlc => 15
  | sentRemoveCommit => 16
  | rcvdRemoveRevocation => 17
  | rcvdRemoveAckCommit => 18
  | sentRemoveAckRevocation => 19

/-- `state + 1`; the successor of the last state is `HTLC_STATE_INVALID`, which has no
flags, so it is `none`. -/
def succ? : HtlcState → Option HtlcState
  | sentAddHtlc => some sentAddCommit
  | sentAddCommit => some rcvdAddRevocation
  | rcvdAddRevocation => some rcvdAddAckCommit
  | rcvdAddAckCommit => some sentAddAckRevocation
  | sentAddAckRevocation => some rcvdRemoveHtlc
  | rcvdRemoveHtlc => some rcvdRemoveCommit
  | rcvdRemoveCommit => some sentRemoveRevocation
  | sentRemoveRevocation => some sentRemoveAckCommit
  | sentRemoveAckCommit => some rcvdRemoveAckRevocation
  | rcvdRemoveAckRevocation => some rcvdAddHtlc
  | rcvdAddHtlc => some rcvdAddCommit
  | rcvdAddCommit => some sentAddRevocation
  | sentAddRevocation => some sentAddAckCommit
  | sentAddAckCommit => some rcvdAddAckRevocation
  | rcvdAddAckRevocation => some sentRemoveHtlc
  | sentRemoveHtlc => some sentRemoveCommit
  | sentRemoveCommit => some rcvdRemoveRevocation
  | rcvdRemoveRevocation => some rcvdRemoveAckCommit
  | rcvdRemoveAckCommit => some sentRemoveAckRevocation
  | sentRemoveAckRevocation => none

end HtlcState

/-! ## Flags -/

/-- `HTLC_ADDING`. -/
def htlcAdding : ℕ := 0x400
/-- `HTLC_REMOVING`. -/
def htlcRemoving : ℕ := 0x800
/-- `HTLC_F_PENDING`: an uncommitted change is pending. -/
def htlcFPending : ℕ := 0x01
/-- `HTLC_F_COMMITTED`: the HTLC is in the commitment transaction. -/
def htlcFCommitted : ℕ := 0x02
/-- `HTLC_F_REVOKED`: the previous commitment transaction was revoked. -/
def htlcFRevoked : ℕ := 0x04
/-- `HTLC_F_OWNER`: this side offered the HTLC. -/
def htlcFOwner : ℕ := 0x08
/-- `HTLC_F_WAS_COMMITTED`: the HTLC was ever in a commitment transaction. -/
def htlcFWasCommitted : ℕ := 0x10

/-- `HTLC_FLAG(side, flag)`: each flag exists once per side, five bits apart. -/
def htlcFlag (side : Side) (flag : ℕ) : ℕ := flag <<< (side.toNat * 5)

/-- `per_state_bits`, via `htlc_state_flags`. -/
def htlcStateFlags : HtlcState → ℕ
  | .sentAddHtlc => htlcAdding + htlcFlag .local htlcFOwner + htlcFlag .remote htlcFPending
  | .sentAddCommit => htlcAdding + htlcFlag .local htlcFOwner + htlcFlag .remote htlcFCommitted
      + htlcFlag .remote htlcFWasCommitted
  | .rcvdAddRevocation => htlcAdding + htlcFlag .local htlcFOwner
      + htlcFlag .remote htlcFCommitted + htlcFlag .remote htlcFRevoked
      + htlcFlag .local htlcFPending + htlcFlag .remote htlcFWasCommitted
  | .rcvdAddAckCommit => htlcAdding + htlcFlag .local htlcFOwner
      + htlcFlag .remote htlcFCommitted + htlcFlag .remote htlcFRevoked
      + htlcFlag .local htlcFCommitted + htlcFlag .local htlcFWasCommitted
      + htlcFlag .remote htlcFWasCommitted
  | .sentAddAckRevocation => htlcFlag .local htlcFOwner
      + htlcFlag .remote htlcFCommitted + htlcFlag .remote htlcFRevoked
      + htlcFlag .local htlcFCommitted + htlcFlag .local htlcFRevoked
      + htlcFlag .local htlcFWasCommitted + htlcFlag .remote htlcFWasCommitted
  | .rcvdRemoveHtlc => htlcRemoving + htlcFlag .local htlcFOwner
      + htlcFlag .local htlcFPending + htlcFlag .local htlcFCommitted
      + htlcFlag .remote htlcFCommitted
      + htlcFlag .local htlcFWasCommitted + htlcFlag .remote htlcFWasCommitted
  | .rcvdRemoveCommit => htlcRemoving + htlcFlag .local htlcFOwner
      + htlcFlag .remote htlcFCommitted
      + htlcFlag .local htlcFWasCommitted + htlcFlag .remote htlcFWasCommitted
  | .sentRemoveRevocation => htlcRemoving + htlcFlag .local htlcFOwner
      + htlcFlag .remote htlcFCommitted + htlcFlag .local htlcFRevoked
      + htlcFlag .remote htlcFPending
      + htlcFlag .local htlcFWasCommitted + htlcFlag .remote htlcFWasCommitted
  | .sentRemoveAckCommit => htlcRemoving + htlcFlag .local htlcFOwner
      + htlcFlag .local htlcFRevoked
      + htlcFlag .local htlcFWasCommitted + htlcFlag .remote htlcFWasCommitted
  | .rcvdRemoveAckRevocation => htlcFlag .local htlcFOwner
      + htlcFlag .local htlcFRevoked + htlcFlag .remote htlcFRevoked
      + htlcFlag .local htlcFWasCommitted + htlcFlag .remote htlcFWasCommitted
  | .rcvdAddHtlc => htlcAdding + htlcFlag .remote htlcFOwner + htlcFlag .local htlcFPending
  | .rcvdAddCommit => htlcAdding + htlcFlag .remote htlcFOwner
      + htlcFlag .local htlcFCommitted + htlcFlag .local htlcFWasCommitted
  | .sentAddRevocation => htlcAdding + htlcFlag .remote htlcFOwner
      + htlcFlag .local htlcFCommitted + htlcFlag .local htlcFRevoked
      + htlcFlag .remote htlcFPending + htlcFlag .local htlcFWasCommitted
  | .sentAddAckCommit => htlcAdding + htlcFlag .remote htlcFOwner
      + htlcFlag .local htlcFCommitted + htlcFlag .local htlcFRevoked
      + htlcFlag .remote htlcFCommitted
      + htlcFlag .local htlcFWasCommitted + htlcFlag .remote htlcFWasCommitted
  | .rcvdAddAckRevocation => htlcFlag .remote htlcFOwner
      + htlcFlag .local htlcFCommitted + htlcFlag .local htlcFRevoked
      + htlcFlag .remote htlcFCommitted + htlcFlag .remote htlcFRevoked
      + htlcFlag .local htlcFWasCommitted + htlcFlag .remote htlcFWasCommitted
  | .sentRemoveHtlc => htlcRemoving + htlcFlag .remote htlcFOwner
      + htlcFlag .remote htlcFPending + htlcFlag .local htlcFCommitted
      + htlcFlag .remote htlcFCommitted
      + htlcFlag .local htlcFWasCommitted + htlcFlag .remote htlcFWasCommitted
  | .sentRemoveCommit => htlcRemoving + htlcFlag .remote htlcFOwner
      + htlcFlag .local htlcFCommitted
      + htlcFlag .local htlcFWasCommitted + htlcFlag .remote htlcFWasCommitted
  | .rcvdRemoveRevocation => htlcRemoving + htlcFlag .remote htlcFOwner
      + htlcFlag .local htlcFCommitted + htlcFlag .remote htlcFRevoked
      + htlcFlag .local htlcFPending
      + htlcFlag .local htlcFWasCommitted + htlcFlag .remote htlcFWasCommitted
  | .rcvdRemoveAckCommit => htlcRemoving + htlcFlag .remote htlcFOwner
      + htlcFlag .remote htlcFRevoked
      + htlcFlag .local htlcFWasCommitted + htlcFlag .remote htlcFWasCommitted
  | .sentRemoveAckRevocation => htlcFlag .remote htlcFOwner
      + htlcFlag .remote htlcFRevoked + htlcFlag .local htlcFRevoked
      + htlcFlag .local htlcFWasCommitted + htlcFlag .remote htlcFWasCommitted

/-- Whether the flags of `state` include any bit of `flag`, as `flags & flag` tests. -/
def HtlcState.has (state : HtlcState) (flag : ℕ) : Bool :=
  htlcStateFlags state &&& flag != 0

/-- `htlc_state_owner`: the states before `RCVD_ADD_HTLC` are ours. -/
def HtlcState.owner (state : HtlcState) : Side :=
  if state.toNat < HtlcState.rcvdAddHtlc.toNat then .local else .remote

/-- The assertions of `htlc_state_owner` hold: its answer is the side whose owner flag
the state carries. -/
theorem HtlcState.has_owner_flag (state : HtlcState) (side : Side) :
    state.has (htlcFlag side htlcFOwner) = decide (state.owner = side) := by
  cases state <;> cases side <;> decide

/-- The states of `channel_sending_commit`. -/
def sendingCommitStates : List HtlcState :=
  [.sentAddHtlc, .sentRemoveRevocation, .sentAddRevocation, .sentRemoveHtlc]

/-- The states of `channel_rcvd_revoke_and_ack`. -/
def rcvdRevokeAndAckStates : List HtlcState :=
  [.sentAddCommit, .sentRemoveAckCommit, .sentAddAckCommit, .sentRemoveCommit]

/-- The states of `channel_rcvd_commit`. -/
def rcvdCommitStates : List HtlcState :=
  [.rcvdAddRevocation, .rcvdRemoveHtlc, .rcvdAddHtlc, .rcvdRemoveRevocation]

/-- The states of `channel_sending_revoke_and_ack`. -/
def sendingRevokeAndAckStates : List HtlcState :=
  [.rcvdAddAckCommit, .rcvdRemoveCommit, .rcvdAddCommit, .rcvdRemoveAckCommit]

end Dexfin.Lightning
