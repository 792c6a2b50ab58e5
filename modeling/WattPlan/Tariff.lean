import WattPlan.Fault
import WattPlan.Scalar

/-!
# Electricity tariffs

A tariff holds one price per kilowatt-hour for each hour of a cycle, and repeats: hour `h` of
planning time has the price of hour `h` modulo the length of the cycle, also for hours before zero.
`energyCost` integrates the price over an interval, whole cycles in one step and the rest hour by
hour; `averagePrice` is the integral over the length of the interval. In floating point the walk over
the hours of a late interval need not end, and then there is no integral: `priceSeconds?` is missing.
-/

namespace WattPlan

/-- Hourly prices per kilowatt-hour, repeating in a cycle of at least one hour. -/
structure Tariff (α : Type) where
  hourly : List α
  nonempty : hourly ≠ []

namespace Tariff

variable {α : Type} [Scalar α]

/-- The first price that is no amount, with its hour. -/
def invalidPrice? (prices : List α) : Option (α × Nat) :=
  prices.zipIdx.find? fun (price, _) => !Scalar.isAmount price

/-- The tariff of a list of prices, if it has any and each is finite and not negative. -/
def ofHourly (prices : List α) : Except (ModelFault α) (Tariff α) :=
  if nonempty : prices = [] then .error .emptyTariff
  else
    match invalidPrice? prices with
    | some (price, hour) => .error (.invalidPrice hour price)
    | none => .ok ⟨prices, nonempty⟩

omit [Scalar α] in
/-- A tariff has at least one hour. -/
theorem length_pos (tariff : Tariff α) : 0 < tariff.hourly.length :=
  List.length_pos_iff.2 tariff.nonempty

/-- The sum of the prices of a cycle. -/
def cycleSum (tariff : Tariff α) : α :=
  Scalar.sum tariff.hourly

/-- The mean price over a cycle. -/
def meanPrice (tariff : Tariff α) : α :=
  Scalar.mean tariff.hourly

/-- The length of an hour in seconds. -/
def hourLength : α :=
  3600

/-- The number of watt-seconds in a kilowatt-hour. -/
def wattSecondsPerUnit : α :=
  3600000

/-- The number of the hour that an instant falls into. -/
def hourNumber (t : α) : Int :=
  Scalar.toInt (Scalar.floor (t / hourLength))

omit [Scalar α] in
/-- The place of an hour in the cycle is a place of the list. -/
theorem phase_lt (tariff : Tariff α) (hour : Int) :
    (hour % (tariff.hourly.length : Int)).toNat < tariff.hourly.length := by
  have hpos := tariff.length_pos
  have hlt := Int.emod_lt_of_pos hour (show (0 : Int) < tariff.hourly.length by omega)
  omega

/-- The price of an hour. -/
def priceOfHour (tariff : Tariff α) (hour : Int) : α :=
  tariff.hourly.get ⟨_, tariff.phase_lt hour⟩

/-- The price in effect at an instant. -/
def priceAt (tariff : Tariff α) (t : α) : α :=
  tariff.priceOfHour (hourNumber t)

/-- The end of the hour that an instant falls into. -/
def hourEnd (t : α) : α :=
  (Scalar.floor (t / hourLength) + 1) * hourLength

/-- The price integrated from `t` to `stop`, added to `total` hour by hour. It is missing where
`steps` steps do not reach `stop`. -/
def integrateHours? (tariff : Tariff α) (stop : α) : Nat → α → α → Option α
  | 0, t, total => if t < stop then none else some total
  | steps + 1, t, total =>
      if t < stop then
        let next := Scalar.min (hourEnd t) stop
        integrateHours? tariff stop steps next (total + (next - t) * tariff.priceAt t)
      else some total

/-- Steps enough for every walk over the hours that ends. Over exact quantities less than a cycle is
left, and a float does not come twice in a walk that ends. -/
def stepLimit (tariff : Tariff α) : Nat :=
  Nat.pow 2 64 + tariff.hourly.length

/-- The price integrated over `[start, stop)`, in price times seconds. An interval without an end
is boundless. The integral is missing where the walk over the hours does not end: an instant may be
so late that the end of its hour is rounded to the instant itself. -/
def priceSeconds? (tariff : Tariff α) (start stop : α) : Option α :=
  if ¬ start < stop then some 0
  else if !Scalar.isFinite stop then some Scalar.infinity
  else
    let cycle := hourLength * Scalar.ofNat tariff.hourly.length
    let cycles := Scalar.floor ((stop - start) / cycle)
    if 1 ≤ cycles then
      tariff.integrateHours? stop tariff.stepLimit (start + cycles * cycle)
        (0 + cycles * tariff.cycleSum * hourLength)
    else tariff.integrateHours? stop tariff.stepLimit start 0

/-- The price integrated over `[start, stop)`. Where the integral is missing, the computation does not
return, and the value given here stands for no result. -/
def priceSeconds (tariff : Tariff α) (start stop : α) : α :=
  (tariff.priceSeconds? start stop).getD Scalar.infinity

/-- The cost of drawing `power` watts over `[start, stop)`. An empty or reversed interval costs
nothing. -/
def energyCost (tariff : Tariff α) (start stop power : α) : α :=
  if power == 0 then 0
  else power * tariff.priceSeconds start stop / wattSecondsPerUnit

/-- The mean price over `[start, stop)`: the price at `start` for an empty interval, the mean of
the cycle for an endless one. -/
def averagePrice (tariff : Tariff α) (start stop : α) : α :=
  if ¬ start < stop then tariff.priceAt start
  else if !Scalar.isFinite stop then tariff.meanPrice
  else tariff.priceSeconds start stop / (stop - start)

end Tariff

end WattPlan
