import BinMarket.Defaults
import BinMarket.Journal.Book
import BinMarket.Proofs.Swap.Capacity
import BinMarket.Report.Named
import BinMarket.Text.Lines
import BinMarket.Proofs.Bitmap.Crossing
import BinMarket.Proofs.Swap.Halting
import BinMarket.Proofs.Swap.Worth
import BinMarket.Proofs.Swap.RoundTrip
import BinMarket.Proofs.Swap.Monotone
import BinMarket.Proofs.Bitmap.Upcoming
import BinMarket.Proofs.Swap.Faults
import BinMarket.Proofs.Swap.InStep
import BinMarket.Proofs.Swap.Prefetch
import BinMarket.Proofs.Swap.Supply
import BinMarket.Proofs.Swap.Dearer
import BinMarket.Proofs.Decimal.Sign
import BinMarket.Proofs.Swap.Impact
import BinMarket.Proofs.Bins
import BinMarket.Proofs.Outcome
import BinMarket.Proofs.Sums
import BinMarket.Proofs.Deposit.Split
import BinMarket.Proofs.Deposit.Plan
import BinMarket.Proofs.Deposit.Shape
import BinMarket.Proofs.Deposit.Curve
import BinMarket.Proofs.Price
import BinMarket.Proofs.Deposit.Strategy
import BinMarket.Proofs.Position.Held
import BinMarket.Proofs.Position.Holdings
import BinMarket.Proofs.Position.Rewards
import BinMarket.Proofs.Position.Scales
import BinMarket.Proofs.Decimal.Nearest
import BinMarket.Proofs.Decimal.Finish
import BinMarket.Proofs.Decimal.Operations
import BinMarket.Proofs.Decimal.Power
import BinMarket.Proofs.Decimal.Series
import BinMarket.Proofs.Decimal.Whole
import BinMarket.Proofs.Decimal.Log
import BinMarket.Proofs.Price.RoundTrip
import BinMarket.Proofs.Fee.Overview
import BinMarket.Proofs.Swap.Charged
import BinMarket.Proofs.Fee.Adjoint
import BinMarket.Proofs.Swap.Threshold
import BinMarket.Proofs.Swap.FlatRate
import BinMarket.Proofs.Price.Ledger
import BinMarket.Proofs.Price.Shortfall
import BinMarket.Proofs.Deposit.Objections
import BinMarket.Proofs.Decimal.Order
import BinMarket.Proofs.Price.Steps
import BinMarket.Proofs.Price.Bracket
import BinMarket.Proofs.Deposit.NoBins
import BinMarket.Proofs.Price.Range
import BinMarket.Proofs.Deposit.Proportion
import BinMarket.Proofs.Deposit.Weight
import BinMarket.Proofs.Position.Credit
import BinMarket.Proofs.Position.Growth
import BinMarket.Proofs.Fee.Updates
import BinMarket.Proofs.Fee.Decay
import BinMarket.Proofs.Bitmap.Ahead
import BinMarket.Proofs.Position.Listing
import BinMarket.Proofs.Position.Covering
import BinMarket.Proofs.FixedPoint
import BinMarket.Proofs.Fee.Between
import BinMarket.Proofs.Price.Rising
