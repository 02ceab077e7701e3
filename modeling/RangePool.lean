import RangePool.Image.Record
import RangePool.Market.Call
import RangePool.Proofs.Market.Steps
import RangePool.Proofs.Market.Run
import RangePool.Proofs.Curve.Reserve
import RangePool.Proofs.Fee.Charge
import RangePool.Proofs.Fee.Gross
import RangePool.Proofs.Pool.Trade
import RangePool.Proofs.Market.Money
import RangePool.Proofs.Market.Reachable
import RangePool.Proofs.Market.Solvency
import RangePool.Proofs.Market.Slippage
import RangePool.Proofs.Reward.Stream
import RangePool.Proofs.Market.Rewards
import RangePool.Proofs.Fee.Base
import RangePool.Proofs.Market.RoundTrip
import RangePool.Proofs.Curve.Limit
import RangePool.Proofs.Pool.Matching
import RangePool.Proofs.Market.Frame
import RangePool.Proofs.Market.Price
import RangePool.Proofs.Market.Earnings
import RangePool.Proofs.Market.Exit
import RangePool.Proofs.Market.Parts
import RangePool.Proofs.Market.Schedules
import RangePool.Proofs.Market.Conservation
import RangePool.Proofs.Fee.Tracker
import RangePool.Proofs.Pool.Booking
import RangePool.Proofs.Market.Totals
import RangePool.Proofs.Image.Codec
import RangePool.Proofs.Image.Form
import RangePool.Proofs.Image.Record
import RangePool.Proofs.Market.FeeBooks
import RangePool.Proofs.Market.Accruals
import RangePool.Proofs.Curve.Monotone
import RangePool.Proofs.Curve.Best
import RangePool.Proofs.Pool.Monotone
import RangePool.Proofs.Pool.Splitting
import RangePool.Proofs.Market.Commuting
import RangePool.Proofs.Market.Activation
import RangePool.Proofs.Pool.Refusal
import RangePool.Proofs.Pool.Capacity
import RangePool.Proofs.Market.Volatility
import RangePool.Proofs.Word
import RangePool.Proofs.Reward.Updates
import RangePool.Proofs.Market.Streaming
