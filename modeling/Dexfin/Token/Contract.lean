import Mathlib.Data.FinEnum
import Dexfin.Lib.CallFrames

/-!
# The DXFToken contract

`src/dexfintoken/DXFToken.sol` is an ERC-20 token compiled by Solidity below 0.6, where
`uint256` arithmetic wraps modulo `2 ^ 256`. Its storage and functions are translated here
with `msg.sender` as an explicit `sender`; a failed `require` or `assert` is an `Except`
error naming the check. `approveAndCall` hands control to the spender's `receiveApproval`,
which may call back into the token; the frame that call opens is `Config` below.
-/

namespace Dexfin.Token

/-- Solidity `uint256`: arithmetic modulo `2 ^ 256`, unsigned comparisons. -/
abbrev Uint256 := BitVec 256

/-- Solidity `address`, twenty bytes. -/
abbrev Address := BitVec 160

/-- The storage the functions read and write. -/
structure State where
  /-- `uint8 public decimals = 18`, read by the constructor. -/
  decimals : BitVec 8
  /-- `uint256 public totalSupply`. -/
  totalSupply : Uint256
  /-- `mapping (address => uint256) public balanceOf`. -/
  balanceOf : Address → Uint256
  /-- `mapping (address => mapping (address => uint256)) public allowance`,
  indexed by owner, then spender. -/
  allowance : Address → Address → Uint256

/-- The check that made a call revert: a `require` of the contract, or the `assert` at the
end of `_transfer`. -/
inductive Failure
  /-- `require(_to != address(0x0))`. -/
  | zeroRecipient
  /-- `require(balanceOf[_from] >= _value)`. -/
  | insufficientBalance
  /-- `require(balanceOf[_to] + _value >= balanceOf[_to])`. -/
  | overflow
  /-- `require(_value <= allowance[_from][msg.sender])`. -/
  | insufficientAllowance
  /-- `assert(balanceOf[_from] + balanceOf[_to] == previousBalances)`. -/
  | assertion
  deriving DecidableEq, Repr

/-- Solidity `require(c)`, reverting with the failure `e`. -/
def require (c : Prop) [Decidable c] (e : Failure) : Except Failure Unit :=
  if c then pure () else throw e

/-- Solidity `assert(c)`. -/
def assert (c : Prop) [Decidable c] : Except Failure Unit :=
  if c then pure () else throw .assertion

@[simp] theorem require_bind {c : Prop} [Decidable c] {e : Failure} {α : Type}
    (f : Unit → Except Failure α) : (require c e >>= f) = if c then f () else .error e := by
  unfold require
  split <;> rfl

@[simp] theorem assert_bind {c : Prop} [Decidable c] {α : Type} (f : Unit → Except Failure α) :
    (assert c >>= f) = if c then f () else .error .assertion := by
  unfold assert
  split <;> rfl

@[simp] theorem assert_map {c : Prop} [Decidable c] {α : Type} (f : Unit → α) :
    (f <$> assert c) = if c then .ok (f ()) else .error .assertion := by
  unfold assert
  split <;> rfl

/-- Storage after `balanceOf[a] = v`. -/
def State.setBalance (s : State) (a : Address) (v : Uint256) : State :=
  { s with balanceOf := Function.update s.balanceOf a v }

/-- Storage after `allowance[o][sp] = v`. -/
def State.setAllowance (s : State) (o sp : Address) (v : Uint256) : State :=
  { s with allowance := Function.update s.allowance o (Function.update (s.allowance o) sp v) }

/-- Storage after `totalSupply = v`. -/
def State.setTotalSupply (s : State) (v : Uint256) : State :=
  { s with totalSupply := v }

@[simp] theorem State.setBalance_balanceOf (s : State) (a : Address) (v : Uint256) :
    (s.setBalance a v).balanceOf = Function.update s.balanceOf a v := rfl

@[simp] theorem State.setBalance_allowance (s : State) (a : Address) (v : Uint256) :
    (s.setBalance a v).allowance = s.allowance := rfl

@[simp] theorem State.setBalance_totalSupply (s : State) (a : Address) (v : Uint256) :
    (s.setBalance a v).totalSupply = s.totalSupply := rfl

@[simp] theorem State.setAllowance_allowance (s : State) (o sp : Address) (v : Uint256) :
    (s.setAllowance o sp v).allowance =
      Function.update s.allowance o (Function.update (s.allowance o) sp v) := rfl

@[simp] theorem State.setAllowance_balanceOf (s : State) (o sp : Address) (v : Uint256) :
    (s.setAllowance o sp v).balanceOf = s.balanceOf := rfl

@[simp] theorem State.setAllowance_totalSupply (s : State) (o sp : Address) (v : Uint256) :
    (s.setAllowance o sp v).totalSupply = s.totalSupply := rfl

@[simp] theorem State.setTotalSupply_balanceOf (s : State) (v : Uint256) :
    (s.setTotalSupply v).balanceOf = s.balanceOf := rfl

@[simp] theorem State.setTotalSupply_allowance (s : State) (v : Uint256) :
    (s.setTotalSupply v).allowance = s.allowance := rfl

@[simp] theorem State.setTotalSupply_totalSupply (s : State) (v : Uint256) :
    (s.setTotalSupply v).totalSupply = v := rfl

/-- The constructor: the whole supply of `210000000 * 10 ** uint256(decimals)` goes to the
creator. Every mapping starts at zero. -/
def constructor (sender : Address) : State :=
  let s : State := ⟨18, 0, fun _ => 0, fun _ _ => 0⟩
  let s := s.setTotalSupply (210000000 * 10 ^ (s.decimals.setWidth 256).toNat)
  s.setBalance sender s.totalSupply

/-- The internal `_transfer(_from, _to, _value)`. -/
def _transfer (s : State) (_from _to : Address) (_value : Uint256) : Except Failure State := do
  require (_to ≠ 0) .zeroRecipient
  require (s.balanceOf _from ≥ _value) .insufficientBalance
  require (s.balanceOf _to + _value ≥ s.balanceOf _to) .overflow
  let previousBalances := s.balanceOf _from + s.balanceOf _to
  let s := s.setBalance _from (s.balanceOf _from - _value)
  let s := s.setBalance _to (s.balanceOf _to + _value)
  assert (s.balanceOf _from + s.balanceOf _to = previousBalances)
  pure s

/-- `transfer(_to, _value)`. -/
def transfer (s : State) (sender _to : Address) (_value : Uint256) : Except Failure State :=
  _transfer s sender _to _value

/-- `transferFrom(_from, _to, _value)`: the allowance of `sender` over `_from` pays for it. -/
def transferFrom (s : State) (sender _from _to : Address) (_value : Uint256) :
    Except Failure State := do
  require (_value ≤ s.allowance _from sender) .insufficientAllowance
  let s := s.setAllowance _from sender (s.allowance _from sender - _value)
  _transfer s _from _to _value

/-- `approve(_spender, _value)`, which never reverts. -/
def approve (s : State) (sender _spender : Address) (_value : Uint256) : State :=
  s.setAllowance sender _spender _value

/-- `burn(_value)`. -/
def burn (s : State) (sender : Address) (_value : Uint256) : Except Failure State := do
  require (s.balanceOf sender ≥ _value) .insufficientBalance
  let s := s.setBalance sender (s.balanceOf sender - _value)
  pure (s.setTotalSupply (s.totalSupply - _value))

/-- `burnFrom(_from, _value)`. -/
def burnFrom (s : State) (sender _from : Address) (_value : Uint256) : Except Failure State := do
  require (s.balanceOf _from ≥ _value) .insufficientBalance
  require (_value ≤ s.allowance _from sender) .insufficientAllowance
  let s := s.setBalance _from (s.balanceOf _from - _value)
  let s := s.setAllowance _from sender (s.allowance _from sender - _value)
  pure (s.setTotalSupply (s.totalSupply - _value))

/-- The public state-changing functions with their arguments. -/
inductive Call
  | transfer (_to : Address) (_value : Uint256)
  | transferFrom (_from _to : Address) (_value : Uint256)
  | approve (_spender : Address) (_value : Uint256)
  | approveAndCall (_spender : Address) (_value : Uint256) (_extraData : List UInt8)
  | burn (_value : Uint256)
  | burnFrom (_from : Address) (_value : Uint256)
  deriving DecidableEq, Repr

/-- What a call does to storage before any call it makes out. For `approveAndCall` this is
its `approve`; the call to `receiveApproval` that follows opens a frame in `Config.step`. -/
def execute (s : State) (sender : Address) : Call → Except Failure State
  | .transfer _to _value => transfer s sender _to _value
  | .transferFrom _from _to _value => transferFrom s sender _from _to _value
  | .approve _spender _value => pure (approve s sender _spender _value)
  | .approveAndCall _spender _value _ => pure (approve s sender _spender _value)
  | .burn _value => burn s sender _value
  | .burnFrom _from _value => burnFrom s sender _from _value

/-- Whether the call goes on to call out, to `receiveApproval` of the spender. -/
def Call.callsOut : Call → Bool
  | .approveAndCall .. => true
  | _ => false

/-- The token as a run sees it: its storage, and as ghost state the calls it has executed
successfully, in order. A call undone by a revert leaves no entry. -/
structure World where
  /-- The contract storage. -/
  storage : State
  /-- Each successful call with its `msg.sender`. -/
  history : List (Address × Call)

/-- The world after `sender` calls `c`, if the call does not revert. -/
def World.exec (w : World) (sender : Address) (c : Call) : Except Failure World :=
  (execute w.storage sender c).map fun s => ⟨s, w.history ++ [(sender, c)]⟩

/-- What can happen next. Calls may come from any sender, also while an `approveAndCall`
waits for its spender: those are the calls `receiveApproval` makes, directly or through
other contracts. -/
inductive Action
  /-- `sender` calls a function of the token. -/
  | call (sender : Address) (c : Call)
  /-- The innermost pending `receiveApproval` returns, and with it its `approveAndCall`. -/
  | callbackReturn
  /-- The innermost pending `receiveApproval` reverts (also when the spender has no code),
  and the whole `approveAndCall` with everything done inside it is undone. -/
  | callbackRevert

/-- The token with the worlds saved by its open `approveAndCall` frames. -/
abbrev Config := CallFrames.Stack World

/-- One action. A reverted call leaves everything as it was. -/
def Config.step (k : Config) : Action → Config
  | .call sender c =>
    match k.current.exec sender c with
    | .error _ => k
    | .ok w => if c.callsOut then k.enter w else k.update w
  | .callbackReturn => k.leave
  | .callbackRevert => k.abort

/-- The configuration after the actions, in order. -/
def Config.run (k : Config) (actions : List Action) : Config := actions.foldl Config.step k

/-- The configuration right after deployment by `creator`. -/
def deploy (creator : Address) : Config := ⟨⟨constructor creator, []⟩, []⟩

/-- A successful call runs `execute` on storage and records itself. -/
theorem World.exec_eq_ok {w w' : World} {sender : Address} {c : Call}
    (h : w.exec sender c = .ok w') :
    execute w.storage sender c = .ok w'.storage ∧ w'.history = w.history ++ [(sender, c)] := by
  unfold World.exec at h
  cases hexec : execute w.storage sender c with
  | error e =>
    rw [hexec] at h
    cases h
  | ok s =>
    rw [hexec] at h
    cases h
    exact ⟨rfl, rfl⟩

/-- Everything one action can do: nothing (a revert), replace the current world by the result
of a successful call, open a frame with it, or close the innermost frame. -/
theorem Config.step_cases (k : Config) (a : Action) :
    k.step a = k ∨
      (∃ sender c w, k.current.exec sender c = .ok w ∧
        (k.step a = k.update w ∨ k.step a = k.enter w)) ∨
      k.step a = k.leave ∨ k.step a = k.abort := by
  cases a with
  | call sender c =>
    cases hexec : k.current.exec sender c with
    | error e =>
      left
      simp [Config.step, hexec]
    | ok w =>
      right; left
      refine ⟨sender, c, w, hexec, ?_⟩
      cases hc : c.callsOut
      · left
        simp [Config.step, hexec, hc]
      · right
        simp [Config.step, hexec, hc]
  | callbackReturn => exact .inr (.inr (.inl rfl))
  | callbackRevert => exact .inr (.inr (.inr rfl))

@[simp] theorem Config.run_nil (k : Config) : k.run [] = k := rfl

@[simp] theorem Config.run_cons (k : Config) (a : Action) (actions : List Action) :
    k.run (a :: actions) = (k.step a).run actions := rfl

end Dexfin.Token
