import NoiseLevel.Core.Transition
import NoiseLevel.Core.Exchange
import NoiseLevel.Core.ExchangeOrder
import NoiseLevel.Core.ExchangeSchedule
import NoiseLevel.Core.Tiling
import NoiseLevel.Core.Decibel
import NoiseLevel.Core.LevelFold
import NoiseLevel.Mpi.SumNoises
import NoiseLevel.Mpi.NoiseSim
import NoiseLevel.Mpi.Partition
import NoiseLevel.Mpi.Ownership
import NoiseLevel.Mpi.Aggregation
import NoiseLevel.Mpi.Shuffle
import NoiseLevel.Mpi.ShuffleExchange
import NoiseLevel.Mpi.CycleIsolation
import NoiseLevel.Mpi.SendBuffers
import NoiseLevel.Mpi.CellMatching
import NoiseLevel.Backend.Schema
import NoiseLevel.Core.RingWindow
import NoiseLevel.Sensor.Window
import NoiseLevel.Sensor.Validity
import NoiseLevel.Mqtt.Engine
import NoiseLevel.Sensor.App
import NoiseLevel.Sensor.Channel
import NoiseLevel.Sensor.Node
import NoiseLevel.Sensor.Connecting
import NoiseLevel.Core.EnergyLevel
import NoiseLevel.Mpi.Movement
import NoiseLevel.Mpi.PointwiseLevels
import NoiseLevel.Mpi.Accuracy
import NoiseLevel.Core.CString
import NoiseLevel.Mpi.ConfigParser
import NoiseLevel.Sensor.Backoff
import NoiseLevel.Mpi.ConfigStrings
import NoiseLevel.Core.Decimal
import NoiseLevel.Backend.JsonText
import NoiseLevel.Mpi.PublishData
import NoiseLevel.Mpi.PublishedCells
import NoiseLevel.Core.Strtok
import NoiseLevel.Sensor.Dataset
import NoiseLevel.Sensor.Robustness
import NoiseLevel.Sensor.Generator
import NoiseLevel.Backend.Database
import NoiseLevel.Backend.Flow
import NoiseLevel.Backend.StoredMeasures
import NoiseLevel.Sensor.SlidingWindow
import NoiseLevel.Mqtt.OutQueue
import NoiseLevel.Sensor.PubBuffer
import NoiseLevel.Backend.JsonForms
import NoiseLevel.Sensor.MessageText
import NoiseLevel.Sensor.RegionId
import NoiseLevel.Mpi.Accumulation
import NoiseLevel.Mpi.MatrixLayout
import NoiseLevel.Core.CheckedInt
import NoiseLevel.Mpi.CheckedRun
import NoiseLevel.Mpi.SafeArithmetic
import NoiseLevel.Core.ExchangeLag
import NoiseLevel.Mpi.BoundedLag
import NoiseLevel.Core.EnergyMerge
import NoiseLevel.Mpi.CycleMatching
import NoiseLevel.Mpi.PassLength
import NoiseLevel.Mpi.PublishedLevels
import NoiseLevel.Backend.FlowRuns
import NoiseLevel.Mpi.StoredCells
import NoiseLevel.Sensor.StoredReadings
import NoiseLevel.Core.Base128
import NoiseLevel.Core.Framing
import NoiseLevel.Mqtt.ControlPacket
import NoiseLevel.Mqtt.Packets
import NoiseLevel.Mqtt.ReadBack
import NoiseLevel.Core.Pipe
import NoiseLevel.Mqtt.ByteStream
import NoiseLevel.Mqtt.StreamIntegrity
import NoiseLevel.Mqtt.BrokerStream
import NoiseLevel.Sensor.MoteStream
import NoiseLevel.Sensor.Chunks
