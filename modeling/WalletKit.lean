import WalletKit.Adapters.Accounts
import WalletKit.Adapters.GasOracle
import WalletKit.Adapters.Policy.Native
import WalletKit.Nonces.Fences
import WalletKit.Safety.Approvals
import WalletKit.Safety.Backends
import WalletKit.Safety.Bodies
import WalletKit.Safety.Burial
import WalletKit.Safety.CancelErrors
import WalletKit.Safety.Chains
import WalletKit.Safety.Clock
import WalletKit.Safety.Collisions
import WalletKit.Safety.Errors
import WalletKit.Safety.Escalation
import WalletKit.Safety.Evidence
import WalletKit.Safety.Expiry
import WalletKit.Safety.Fallback
import WalletKit.Safety.Finality
import WalletKit.Safety.Handles
import WalletKit.Safety.Heads
import WalletKit.Safety.Holes
import WalletKit.Safety.Hosts
import WalletKit.Safety.Indeterminate
import WalletKit.Safety.Keys
import WalletKit.Safety.Ladder
import WalletKit.Safety.Mounts
import WalletKit.Safety.Policies
import WalletKit.Safety.Progress
import WalletKit.Safety.Rebroadcast
import WalletKit.Safety.Receipts
import WalletKit.Safety.Recycling
import WalletKit.Safety.Relayed
import WalletKit.Safety.Retries
import WalletKit.Safety.Sweep
import WalletKit.Safety.WriteAhead
import WalletKit.Adapters.Outages
import WalletKit.Safety.Binding
import WalletKit.Safety.PendingIndex
